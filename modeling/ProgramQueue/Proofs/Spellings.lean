import ProgramQueue.Proofs.Texts

/-!
# Texts that are put together

A text denotes the same value wherever it stands: what follows a value in an array or in an
object cannot be part of it.  So a text that is put together from texts of the parts denotes the
whole, however the parts are written.
-/

namespace ProgramQueue.Json

variable {c : Char} {json : Json} {text rest more : List Char}

/-! ## Strings and numbers -/

/-- A string ends at its quote, whatever follows. -/
theorem units_append {parts : List Nat} (h : units text = some (parts, rest)) (more : List Char) :
    units (text ++ more) = some (parts, rest ++ more) := by
  induction text using units.induct generalizing parts with
  | case1 rest =>
      cases h
      rfl
  | case2 a b c d tail ih =>
      rw [units] at h
      obtain ⟨unit, hunit, h⟩ := Option.bind_eq_some_iff.1 h
      obtain ⟨⟨later, _⟩, hlater, h⟩ := Option.bind_eq_some_iff.1 h
      cases h
      simp only [List.cons_append, units, hunit, ih hlater]
      rfl
  | case3 letter tail hother ih =>
      rw [units.eq_3 _ _ hother] at h
      obtain ⟨c, hletter, h⟩ := Option.bind_eq_some_iff.1 h
      obtain ⟨⟨later, _⟩, hlater, h⟩ := Option.bind_eq_some_iff.1 h
      cases h
      rw [List.cons_append, List.cons_append, units_short hletter, ih hlater]
      rfl
  | case4 first tail hquote hlong hshort hspoilt =>
      rw [units.eq_4 _ _ hquote hlong hshort, if_pos hspoilt] at h
      cases h
  | case5 first tail hquote hlong hshort hplain ih =>
      rw [units.eq_4 _ _ hquote hlong hshort, if_neg hplain] at h
      obtain ⟨⟨later, _⟩, hlater, h⟩ := Option.bind_eq_some_iff.1 h
      cases h
      have hbare : first ≠ '\\' := fun heq => hplain (Or.inr heq)
      rw [List.cons_append, units.eq_4 _ _ hquote (fun _ _ _ _ _ heq => absurd heq hbare)
        (fun _ _ heq => absurd heq hbare), if_neg hplain, ih hlater]
      rfl
  | case6 => cases h

theorem stringBody_append {found : Option String} (h : stringBody text = some (found, rest))
    (more : List Char) : stringBody (text ++ more) = some (found, rest ++ more) := by
  obtain ⟨⟨parts, _⟩, hparts, h⟩ := Option.bind_eq_some_iff.1 h
  cases h
  rw [stringBody, units_append hparts]
  rfl

theorem spanDigits_more {digits : List Char} (h : spanDigits text = (digits, rest))
    (hmore : Ends more) : spanDigits (text ++ more) = (digits, rest ++ more) := by
  induction text generalizing digits with
  | nil =>
      cases h
      exact spanDigits_append (List.forall_mem_nil _) hmore.head
  | cons c text ih =>
      rw [spanDigits, List.takeWhile_cons, List.dropWhile_cons] at h
      rw [spanDigits, List.cons_append, List.takeWhile_cons, List.dropWhile_cons]
      split at h
      · rename_i hdigit
        cases h
        have htail := Prod.mk.inj (ih rfl)
        rw [if_pos hdigit, if_pos hdigit]
        exact Prod.ext (congrArg (c :: ·) htail.1) htail.2
      · rename_i hdigit
        cases h
        rw [if_neg hdigit, if_neg hdigit]
        rfl

theorem wholePart_append {digits : List Char} (h : wholePart? text = some (digits, rest))
    (hmore : Ends more) : wholePart? (text ++ more) = some (digits, rest ++ more) := by
  cases hspan : spanDigits text with
  | mk found tail =>
      rw [wholePart?, hspan] at h
      rw [wholePart?, spanDigits_more hspan hmore]
      split at h
      · cases h
      · cases h
      · rename_i hnone hzero
        cases h
        split
        · rename_i heq
          exact (hnone rest (congrArg (·, rest) (Prod.mk.inj heq).1)).elim
        · rename_i heq
          exact (hzero _ _ rest (congrArg (·, rest) (Prod.mk.inj heq).1)).elim
        · rfl

theorem fractionPart_append {digits : Option (List Char)}
    (h : fractionPart? text = some (digits, rest)) (hmore : Ends more) :
    fractionPart? (text ++ more) = some (digits, rest ++ more) := by
  have hnone {text : List Char} (hpoint : ∀ tail, text ≠ '.' :: tail) :
      fractionPart? text = some (none, text) := by
    unfold fractionPart?
    split
    · exact absurd rfl (hpoint _)
    · rfl
  cases text with
  | nil =>
      cases h
      refine hnone fun tail heq => ?_
      subst heq
      exact hmore.2.1 rfl
  | cons c text =>
      by_cases hpoint : c = '.'
      · subst hpoint
        cases hspan : spanDigits text with
        | mk found tail =>
            rw [fractionPart?, hspan] at h
            rw [List.cons_append, fractionPart?, spanDigits_more hspan hmore]
            cases found with
            | nil => cases h
            | cons first found =>
                cases h
                rfl
      · have hfirst (text : List Char) : ∀ tail, c :: text ≠ '.' :: tail := fun _ heq =>
          hpoint (List.cons.inj heq).1
        rw [hnone (hfirst _)] at h
        cases h
        exact hnone (hfirst _)

theorem signedPower_append {negative : Bool} {power : Option Int}
    (h : signedPower? negative text = some (power, rest)) (hmore : Ends more) :
    signedPower? negative (text ++ more) = some (power, rest ++ more) := by
  cases hspan : spanDigits text with
  | mk found tail =>
      rw [signedPower?, hspan] at h
      rw [signedPower?, spanDigits_more hspan hmore]
      cases found with
      | nil => cases h
      | cons first found =>
          cases h
          rfl

/-- A power with its letter, as the character after that one has it. -/
theorem powerPart_cons (hpower : c = 'e' ∨ c = 'E') (sign : Char) (tail : List Char) :
    powerPart? (c :: sign :: tail) =
      if sign = '+' then signedPower? false tail
      else if sign = '-' then signedPower? true tail
      else signedPower? false (sign :: tail) := by
  unfold powerPart?
  dsimp only
  rw [if_pos hpower]
  split
  · rename_i heq
    obtain ⟨rfl, rfl⟩ := List.cons.inj heq
    rfl
  · rename_i heq
    obtain ⟨rfl, rfl⟩ := List.cons.inj heq
    rfl
  · rename_i hplus hminus
    rw [if_neg fun heq => hplus tail (by rw [heq]), if_neg fun heq => hminus tail (by rw [heq])]

theorem powerPart_append {power : Option Int} (h : powerPart? text = some (power, rest))
    (hmore : Ends more) : powerPart? (text ++ more) = some (power, rest ++ more) := by
  cases text with
  | nil =>
      cases h
      cases more with
      | nil => rfl
      | cons c more => exact if_neg (not_or.2 hmore.2.2)
  | cons c text =>
      by_cases hpower : c = 'e' ∨ c = 'E'
      · cases text with
        | nil =>
            rw [powerPart?, if_pos hpower] at h
            cases h
            all_goals nofun
        | cons sign tail =>
            rw [powerPart_cons hpower] at h
            rw [List.cons_append, List.cons_append, powerPart_cons hpower]
            split at h
            · rename_i hsign
              exact (if_pos hsign).trans (signedPower_append h hmore)
            rename_i hplus
            rw [if_neg hplus]
            split at h
            · rename_i hsign
              exact (if_pos hsign).trans (signedPower_append h hmore)
            · rename_i hminus
              exact (if_neg hminus).trans (signedPower_append h hmore)
      · have hnone (text : List Char) : powerPart? (c :: text) = some (none, c :: text) :=
          if_neg hpower
        rw [hnone] at h
        cases h
        exact hnone _

theorem unsignedNumber_append {negative : Bool}
    (h : unsignedNumber negative text = some (json, rest)) (hmore : Ends more) :
    unsignedNumber negative (text ++ more) = some (json, rest ++ more) := by
  obtain ⟨⟨whole, _⟩, hwhole, h⟩ := Option.bind_eq_some_iff.1 h
  obtain ⟨⟨fraction, _⟩, hfraction, h⟩ := Option.bind_eq_some_iff.1 h
  obtain ⟨⟨power, _⟩, hpower, h⟩ := Option.bind_eq_some_iff.1 h
  rw [unsignedNumber, wholePart_append hwhole hmore]
  dsimp only [Option.bind_eq_bind, Option.bind_some]
  rw [fractionPart_append hfraction hmore]
  dsimp only [Option.bind_eq_bind, Option.bind_some]
  rw [powerPart_append hpower hmore]
  dsimp only [Option.bind_eq_bind, Option.bind_some] at h ⊢
  cases fraction with
  | none =>
     cases power with
     | none => cases h; rfl
     | some => cases h; rfl
  | some => cases h; rfl

theorem number_of_ne (hsign : c ≠ '-') (text : List Char) :
    number (c :: text) = unsignedNumber false (c :: text) := by
  rw [number.eq_def]
  split
  · rename_i heq
    exact absurd (List.cons.inj heq).1 hsign
  · rfl

theorem number_append (h : number text = some (json, rest)) (hmore : Ends more) :
    number (text ++ more) = some (json, rest ++ more) := by
  cases text with
  | nil => cases h
  | cons c text =>
      by_cases hsign : c = '-'
      · subst hsign
        exact unsignedNumber_append h hmore
      · rw [number_of_ne hsign] at h
        exact (number_of_ne hsign _).trans (unsignedNumber_append h hmore)

/-- A number starts with a sign or with a digit. -/
theorem number_first (h : number text = some (json, rest)) :
    ∃ first tail, text = first :: tail ∧ isBlank first = false ∧
      (isDigit first = true ∨ first = '-') := by
  cases text with
  | nil => cases h
  | cons c text =>
      by_cases hsign : c = '-'
      · subst hsign
        exact ⟨'-', text, rfl, rfl, Or.inr rfl⟩
      cases hdigit : isDigit c with
      | true => exact ⟨c, text, rfl, not_blank_of_digit hdigit, Or.inl hdigit⟩
      | false =>
          have hspan : spanDigits (c :: text) = ([], c :: text) := by
            rw [spanDigits, List.takeWhile_cons, List.dropWhile_cons, hdigit]
            rfl
          rw [number_of_ne hsign, unsignedNumber, wholePart?, hspan] at h
          cases h

/-! ## Values -/

theorem skipBlanks_append (h : skipBlanks text = c :: rest) (more : List Char) :
    skipBlanks (text ++ more) = c :: (rest ++ more) := by
  unfold skipBlanks at h ⊢
  rw [List.dropWhile_append, h]
  rfl

theorem not_blank_of_skip (h : skipBlanks text = c :: rest) : isBlank c = false := by
  have hhead := List.head?_dropWhile_not isBlank text
  unfold skipBlanks at h
  rw [h] at hhead
  simpa using hhead

/-- What is read with a budget is read with a greater one too, whatever follows that cannot be
part of it. -/
structure ReadsOn (budget : Nat) : Prop where
  single {text rest : List Char} {json : Json} (h : value budget text = some (json, rest))
    {more : List Char} (hmore : Ends more) {extra : Nat} :
    value (budget + extra) (text ++ more) = some (json, rest ++ more)
  listed {text rest : List Char} {items : List Json} (h : values budget text = some (items, rest))
    {more : List Char} (hmore : Ends more) {extra : Nat} :
    values (budget + extra) (text ++ more) = some (items, rest ++ more)
  named {text rest : List Char} {members : List (Option String × Json)}
    (h : namedValues budget text = some (members, rest))
    {more : List Char} (hmore : Ends more) {extra : Nat} :
    namedValues (budget + extra) (text ++ more) = some (members, rest ++ more)

theorem value_nil (budget : Nat) : value budget [] = none := by
  cases budget <;> rfl

theorem values_nil (budget : Nat) : values budget [] = none := by
  cases budget with
  | zero => rfl
  | succ budget =>
      rw [values, value_nil]
      rfl

theorem namedValues_nil (budget : Nat) : namedValues budget [] = none := by
  cases budget <;> rfl

/-- Blanks in front of a value make no difference. -/
theorem value_skip (h : skipBlanks text = c :: rest) (budget : Nat) :
    value (budget + 1) text = value (budget + 1) (c :: rest) := by
  rw [value, h, value, skipBlanks_cons (not_blank_of_skip h)]

/-- Where nothing is read from an empty text, something is left behind the blanks. -/
theorem skipBlanks_of_read {α : Type} {read : List Char → Option α} {found : α}
    (hnil : read [] = none) (hread : read (skipBlanks text) = some found) :
    ∃ c inner, skipBlanks text = c :: inner ∧ read (c :: inner) = some found := by
  cases hinner : skipBlanks text with
  | nil =>
      rw [hinner, hnil] at hread
      cases hread
  | cons c inner => exact ⟨c, inner, rfl, hinner ▸ hread⟩

theorem ReadsOn.value_succ {budget : Nat} (hreads : ReadsOn budget)
    (h : value (budget + 1) text = some (json, rest)) (hmore : Ends more) {extra : Nat} :
    value (budget + 1 + extra) (text ++ more) = some (json, rest ++ more) := by
  rw [Nat.add_right_comm]
  rw [value] at h
  split at h
  · rename_i tail hbrace
    rw [value]
    simp only [skipBlanks_append hbrace]
    split at h
    · rename_i hclosed
      cases h
      simp only [skipBlanks_append hclosed]
    · rename_i hopen
      obtain ⟨⟨members, _⟩, hread, heq⟩ := Option.bind_eq_some_iff.1 h
      cases heq
      obtain ⟨c, inner, hinner, hread⟩ := skipBlanks_of_read (namedValues_nil budget) hread
      rw [hinner] at hopen
      simp only [skipBlanks_append hinner]
      split
      · rename_i heq
        exact absurd (congrArg (· :: inner) (List.cons.inj heq).1) (hopen inner)
      · rw [← List.cons_append, hreads.named hread hmore]
        rfl
  · rename_i tail hbracket
    rw [value]
    simp only [skipBlanks_append hbracket]
    split at h
    · rename_i hclosed
      cases h
      simp only [skipBlanks_append hclosed]
    · rename_i hopen
      obtain ⟨⟨members, _⟩, hread, heq⟩ := Option.bind_eq_some_iff.1 h
      cases heq
      obtain ⟨c, inner, hinner, hread⟩ := skipBlanks_of_read (values_nil budget) hread
      rw [hinner] at hopen
      simp only [skipBlanks_append hinner]
      split
      · rename_i heq
        exact absurd (congrArg (· :: inner) (List.cons.inj heq).1) (hopen inner)
      · rw [← List.cons_append, hreads.listed hread hmore]
        rfl
  · rename_i tail hquote
    obtain ⟨⟨found, _⟩, hread, heq⟩ := Option.bind_eq_some_iff.1 h
    cases heq
    rw [value]
    simp only [skipBlanks_append hquote, stringBody_append hread]
    rfl
  · rename_i hword
    cases h
    rw [value]
    simp only [skipBlanks_append hword, List.cons_append]
  · rename_i hword
    cases h
    rw [value]
    simp only [skipBlanks_append hword, List.cons_append]
  · rename_i hword
    cases h
    rw [value]
    simp only [skipBlanks_append hword, List.cons_append]
  · obtain ⟨first, tail, hfirst, hblank, hdigit⟩ := number_first h
    rw [hfirst] at h
    rw [value_skip (skipBlanks_append hfirst more), value_number hblank hdigit,
      ← List.cons_append]
    exact number_append h hmore

theorem ReadsOn.values_succ {budget : Nat} {items : List Json} (hreads : ReadsOn budget)
    (h : values (budget + 1) text = some (items, rest)) (hmore : Ends more) {extra : Nat} :
    values (budget + 1 + extra) (text ++ more) = some (items, rest ++ more) := by
  rw [Nat.add_right_comm, values]
  rw [values] at h
  obtain ⟨⟨item, tail⟩, hitem, h⟩ := Option.bind_eq_some_iff.1 h
  rw [hreads.single hitem hmore]
  dsimp only [Option.bind_eq_bind, Option.bind_some] at h ⊢
  split at h
  · rename_i hcomma
    obtain ⟨⟨later, _⟩, hlater, heq⟩ := Option.bind_eq_some_iff.1 h
    cases heq
    simp only [skipBlanks_append hcomma, hreads.listed hlater hmore]
    rfl
  · rename_i hbracket
    cases h
    simp only [skipBlanks_append hbracket]
    rfl
  · cases h

theorem ReadsOn.namedValues_succ {budget : Nat} {members : List (Option String × Json)}
    (hreads : ReadsOn budget) (h : namedValues (budget + 1) text = some (members, rest))
    (hmore : Ends more) {extra : Nat} :
    namedValues (budget + 1 + extra) (text ++ more) = some (members, rest ++ more) := by
  rw [Nat.add_right_comm, namedValues]
  rw [namedValues] at h
  split at h
  · rename_i hquote
    obtain ⟨⟨name, _⟩, hname, h⟩ := Option.bind_eq_some_iff.1 h
    simp only [skipBlanks_append hquote, stringBody_append hname]
    dsimp only [Option.bind_eq_bind, Option.bind_some] at h ⊢
    split at h
    · rename_i hcolon
      obtain ⟨⟨item, _⟩, hitem, h⟩ := Option.bind_eq_some_iff.1 h
      simp only [skipBlanks_append hcolon, hreads.single hitem hmore]
      dsimp only [Option.bind_some] at h ⊢
      split at h
      · rename_i hcomma
        obtain ⟨⟨later, _⟩, hlater, heq⟩ := Option.bind_eq_some_iff.1 h
        cases heq
        simp only [skipBlanks_append hcomma, hreads.named hlater hmore]
        rfl
      · rename_i hbrace
        cases h
        simp only [skipBlanks_append hbrace]
        rfl
      · cases h
    · cases h
  · cases h

theorem readsOn (budget : Nat) : ReadsOn budget := by
  induction budget with
  | zero => exact ⟨nofun, nofun, nofun⟩
  | succ budget ih =>
      exact ⟨fun h => ih.value_succ h, fun h => ih.values_succ h, fun h => ih.namedValues_succ h⟩

/-! ## Texts that are put together -/

mutual

/-- A text that is put together like the one without blanks, but from any texts that denote the
parts. -/
inductive Spells : Json → List Char → Prop
  | whole {json : Json} {chars : List Char} (h : ofChars? chars = some json) : Spells json chars
  | arr {item : Json} {items : List Json} {first rest : List Char} (hfirst : Spells item first)
      (hrest : SpellsItems items rest) : Spells (.arr (item :: items)) ('[' :: (first ++ rest))
  | obj {name : String} {item : Json} {members : List (String × Json)} {first rest : List Char}
      (hfirst : Spells item first) (hrest : SpellsMembers members rest) :
      Spells (.obj ((name, item) :: members)) ('{' :: (quoted name ++ ':' :: (first ++ rest)))

inductive SpellsItems : List Json → List Char → Prop
  | nil : SpellsItems [] [']']
  | cons {item : Json} {items : List Json} {first rest : List Char} (hfirst : Spells item first)
      (hrest : SpellsItems items rest) : SpellsItems (item :: items) (',' :: (first ++ rest))

inductive SpellsMembers : List (String × Json) → List Char → Prop
  | nil : SpellsMembers [] ['}']
  | cons {name : String} {item : Json} {members : List (String × Json)} {first rest : List Char}
      (hfirst : Spells item first) (hrest : SpellsMembers members rest) :
      SpellsMembers ((name, item) :: members) (',' :: (quoted name ++ ':' :: (first ++ rest)))

end

/-- A value is read from a text, and nothing but blanks is left of it. -/
def Denotes (json : Json) (chars : List Char) : Prop :=
  ∃ blanks, value (2 * chars.length + 1) chars = some (json, blanks) ∧ skipBlanks blanks = []

variable {item : Json} {items : List Json} {name : String} {members : List (String × Json)}
  {chars first : List Char}

theorem denotes_iff : Denotes json chars ↔ ofChars? chars = some json := by
  constructor
  · rintro ⟨blanks, hread, hblanks⟩
    rw [ofChars?, hread]
    exact if_pos hblanks
  · intro h
    obtain ⟨⟨read, blanks⟩, hread, h⟩ := Option.bind_eq_some_iff.1 h
    dsimp only at h
    split at h
    · cases h
      exact ⟨blanks, hread, by assumption⟩
    · cases h

/-- What follows a value that cannot be part of it stands where the value was read. -/
theorem Denotes.value_append (h : Denotes json chars) (hclosed : isBlank c = false)
    (hmore : Ends (c :: more)) {budget : Nat} (hbudget : 2 * chars.length + 1 ≤ budget) :
    ∃ blanks, value budget (chars ++ c :: more) = some (json, blanks ++ c :: more) ∧
      skipBlanks (blanks ++ c :: more) = c :: more := by
  obtain ⟨blanks, hread, hblanks⟩ := h
  obtain ⟨extra, rfl⟩ := Nat.exists_eq_add_of_le hbudget
  refine ⟨blanks, (readsOn _).single hread hmore, ?_⟩
  unfold skipBlanks at hblanks ⊢
  rw [List.dropWhile_append, hblanks]
  exact skipBlanks_cons hclosed more

/-- A value starts somewhere, and not with a closing bracket. -/
theorem Denotes.starts (h : Denotes json chars) :
    ∃ c tail, skipBlanks chars = c :: tail ∧ c ≠ ']' := by
  obtain ⟨blanks, hread, -⟩ := h
  cases hskip : skipBlanks chars with
  | nil =>
      rw [value, hskip] at hread
      cases hread
  | cons c tail =>
      refine ⟨c, tail, rfl, ?_⟩
      rintro rfl
      rw [value, hskip] at hread
      obtain ⟨first, tail, heq, -, hdigit⟩ := number_first hread
      obtain ⟨rfl, -⟩ := List.cons.inj heq
      rcases hdigit with hdigit | hsign
      · cases hdigit
      · cases hsign

theorem values_skip (h : skipBlanks text = c :: rest) (budget : Nat) :
    values budget text = values budget (c :: rest) := by
  cases budget with
  | zero => rfl
  | succ budget =>
      cases budget with
      | zero => rfl
      | succ budget => rw [values, value_skip h, values]

/-- After any item, the rest of an array is read as these items. -/
def DenotesItems (items : List Json) (rest : List Char) : Prop :=
  ∀ {item first budget}, Denotes item first → 2 * (first.length + rest.length) ≤ budget →
    values budget (first ++ rest) = some (item :: items, [])

/-- After any member, the rest of an object is read as these members. -/
def DenotesMembers (members : List (String × Json)) (rest : List Char) : Prop :=
  ∀ (name : String) {item first budget}, Denotes item first →
    2 * (first.length + rest.length) ≤ budget →
    namedValues budget (quoted name ++ ':' :: (first ++ rest)) =
      some (((name, item) :: members).map fun member => (some member.1, member.2), [])

theorem denotesItems_nil : DenotesItems [] [']'] := by
  intro item first budget hfirst hbudget
  rw [List.length_singleton] at hbudget
  obtain ⟨budget, rfl⟩ : ∃ rest, budget = rest + 1 := ⟨budget - 1, by omega⟩
  have hends : Ends (']' :: []) := ⟨rfl, nofun, nofun, nofun⟩
  have hbound : 2 * first.length + 1 ≤ budget := by omega
  obtain ⟨blanks, hread, hskip⟩ := hfirst.value_append rfl hends hbound
  rw [values, hread]
  simp only [Option.bind_eq_bind, Option.bind_some, hskip]
  rfl

theorem denotesItems_cons (hitem : Denotes item chars) (hrest : DenotesItems items rest) :
    DenotesItems (item :: items) (',' :: (chars ++ rest)) := by
  intro first text budget hfirst hbudget
  rw [List.length_cons, List.length_append] at hbudget
  obtain ⟨budget, rfl⟩ : ∃ rest, budget = rest + 1 := ⟨budget - 1, by omega⟩
  have hends : Ends (',' :: (chars ++ rest)) := ⟨rfl, nofun, nofun, nofun⟩
  have hbound : 2 * text.length + 1 ≤ budget := by omega
  obtain ⟨blanks, hread, hskip⟩ := hfirst.value_append rfl hends hbound
  rw [values, hread]
  simp only [Option.bind_eq_bind, Option.bind_some, hskip]
  rw [hrest hitem (by omega)]
  rfl

theorem denotes_arr (hitem : Denotes item chars) (hrest : DenotesItems items rest) :
    Denotes (.arr (item :: items)) ('[' :: (chars ++ rest)) := by
  obtain ⟨c, tail, hskip, hopen⟩ := hitem.starts
  have hskip := skipBlanks_append hskip rest
  have hread : values (2 * ('[' :: (chars ++ rest)).length) (c :: (tail ++ rest)) =
      some (item :: items, []) := by
    rw [← values_skip hskip]
    refine hrest hitem ?_
    rw [List.length_cons, List.length_append]
    omega
  refine ⟨[], ?_, rfl⟩
  rw [value, skipBlanks_cons rfl]
  simp only [hskip]
  split
  · rename_i heq
    exact absurd (List.cons.inj heq).1 hopen
  · rw [hread]
    rfl

theorem denotesMembers_nil : DenotesMembers [] ['}'] := by
  intro other item first budget hfirst hbudget
  rw [List.length_singleton] at hbudget
  obtain ⟨budget, rfl⟩ : ∃ rest, budget = rest + 1 := ⟨budget - 1, by omega⟩
  have hends : Ends ('}' :: []) := ⟨rfl, nofun, nofun, nofun⟩
  have hbound : 2 * first.length + 1 ≤ budget := by omega
  obtain ⟨blanks, hread, hskip⟩ := hfirst.value_append rfl hends hbound
  rw [namedValues, quoted_append, skipBlanks_cons rfl]
  simp [stringBody_quoted, skipBlanks_cons (show isBlank ':' = false from rfl), hread, hskip]

theorem denotesMembers_cons (hitem : Denotes item chars) (hrest : DenotesMembers members rest) :
    DenotesMembers ((name, item) :: members) (',' :: (quoted name ++ ':' :: (chars ++ rest))) := by
  intro other first text budget hfirst hbudget
  rw [List.length_cons, List.length_append, List.length_cons, List.length_append] at hbudget
  obtain ⟨budget, rfl⟩ : ∃ rest, budget = rest + 1 := ⟨budget - 1, by omega⟩
  have hends : Ends (',' :: (quoted name ++ ':' :: (chars ++ rest))) :=
    ⟨rfl, nofun, nofun, nofun⟩
  have hbound : 2 * text.length + 1 ≤ budget := by omega
  obtain ⟨blanks, hread, hskip⟩ := hfirst.value_append rfl hends hbound
  have hrestBound : 2 * (chars.length + rest.length) ≤ budget := by omega
  have hlater := hrest name hitem hrestBound
  rw [namedValues, quoted_append, skipBlanks_cons rfl]
  simp [stringBody_quoted, skipBlanks_cons (show isBlank ':' = false from rfl), hread, hskip,
    hlater]

theorem denotes_obj (hitem : Denotes item chars) (hrest : DenotesMembers members rest) :
    Denotes (.obj ((name, item) :: members))
      ('{' :: (quoted name ++ ':' :: (chars ++ rest))) := by
  refine ⟨[], ?_, rfl⟩
  rw [quoted_append, value_brace, ← quoted_append, hrest name hitem, Option.map_some,
    ofMembers_named]
  rw [quoted_append]
  simp only [List.length_cons, List.length_append]
  omega

mutual

theorem Spells.denotes : ∀ {json : Json} {chars : List Char}, Spells json chars →
    Denotes json chars
  | _, _, .whole h => denotes_iff.2 h
  | _, _, .arr hfirst hrest => denotes_arr hfirst.denotes hrest.denotes
  | _, _, .obj hfirst hrest => denotes_obj hfirst.denotes hrest.denotes

theorem SpellsItems.denotes : ∀ {items : List Json} {rest : List Char}, SpellsItems items rest →
    DenotesItems items rest
  | _, _, .nil => denotesItems_nil
  | _, _, .cons hfirst hrest => denotesItems_cons hfirst.denotes hrest.denotes

theorem SpellsMembers.denotes : ∀ {members : List (String × Json)} {rest : List Char},
    SpellsMembers members rest → DenotesMembers members rest
  | _, _, .nil => denotesMembers_nil
  | _, _, .cons hfirst hrest => denotesMembers_cons hfirst.denotes hrest.denotes

end

/-- A text that is put together from texts of the parts denotes the whole. -/
theorem parse_spelled (h : Spells json chars) : parse? (String.ofList chars) = some json := by
  rw [parse?, String.toList_ofList]
  exact denotes_iff.1 h.denotes

theorem spells_compact (h : json.Throughout IsExact) : json.Spells json.compactChars := by
  have hparse := parse_compact h
  rw [parse?, compact, String.toList_ofList] at hparse
  exact .whole hparse

end ProgramQueue.Json
