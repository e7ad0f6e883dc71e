import ProgramQueue.Push.Interest

/-!
# Texts of places and ids of events

The text of a place names the place, and it has no colon.  So an event id names both
the program and the place of a leaf in it, whatever the id of the program looks like.
-/

namespace ProgramQueue

namespace Branch

/-- The letters of a turn: a word and the digits of the index. -/
theorem text_toList (branch : Branch) :
    branch.text.toList = match branch with
      | .seq index => 's' :: 'e' :: 'q' :: '_' :: Nat.toDigits 10 index
      | .par index => 'p' :: 'a' :: 'r' :: '_' :: Nat.toDigits 10 index := by
  cases branch <;> simp [text, toString, Nat.toList_repr]

theorem text_injective {first second : Branch} (h : first.text = second.text) :
    first = second := by
  have hletters := congrArg String.toList h
  have hdigits {i j : Nat} (heq : Nat.toDigits 10 i = Nat.toDigits 10 j) : i = j := by
    rw [← @Nat.ofDigitChars_ten_toDigits i, heq, Nat.ofDigitChars_ten_toDigits]
  rw [text_toList, text_toList] at hletters
  cases first <;> cases second <;> simp at hletters
  · rw [hdigits hletters]
  · rw [hdigits hletters]

/-- A turn is written with letters, digits and an underscore only. -/
theorem not_mem_text {branch : Branch} {c : Char} (hdigit : c.isDigit = false)
    (hword : c ∉ ['s', 'e', 'q', '_', 'p', 'a', 'r']) : c ∉ branch.text.toList := by
  have hdigits (index : Nat) : c ∉ Nat.toDigits 10 index := fun hmem => by
    rw [Nat.isDigit_of_mem_toDigits (by decide) (by decide) hmem] at hdigit
    cases hdigit
  rw [text_toList]
  cases branch <;> simp_all

theorem text_ne_nil (branch : Branch) : branch.text.toList ≠ [] := by
  rw [text_toList]
  cases branch <;> simp

theorem text_isEmpty (branch : Branch) : branch.text.isEmpty = false := by
  rw [String.isEmpty_eq_false_iff]
  intro h
  exact branch.text_ne_nil (by rw [h]; rfl)

end Branch

namespace Path

theorem text_isEmpty (branch : Branch) (rest : Path) :
    (text (branch :: rest)).isEmpty = false := by
  rw [text, join, branch.text_isEmpty, if_neg Bool.false_ne_true]
  split
  · exact branch.text_isEmpty
  · rename_i h
    simp [String.isEmpty_eq_false_iff]

/-- The turns of a place are divided by points. -/
theorem text_cons (branch : Branch) (rest : Path) :
    (text (branch :: rest)).toList =
      branch.text.toList ++ if rest = [] then [] else '.' :: (text rest).toList := by
  rw [text, join, branch.text_isEmpty, if_neg Bool.false_ne_true]
  cases rest with
  | nil => simp [text]
  | cons next rest => simp [text_isEmpty]

theorem text_injective : {first second : Path} → first.text = second.text → first = second
  | [], [], _ => rfl
  | [], branch :: rest, h => by
      have := text_isEmpty branch rest
      rw [← h] at this
      cases this
  | branch :: rest, [], h => by
      have := text_isEmpty branch rest
      rw [h] at this
      cases this
  | branch :: rest, other :: others, h => by
      have hletters := congrArg String.toList h
      rw [text_cons, text_cons] at hletters
      have hpoint (turn : Branch) : ∀ c ∈ turn.text.toList, (c != '.') = true := fun c hc => by
        have : '.' ∉ turn.text.toList := Branch.not_mem_text (by decide) (by decide)
        simp only [bne_iff_ne]
        rintro rfl
        exact this hc
      have hfirst := congrArg (List.takeWhile (· != '.')) hletters
      have hrest := congrArg (List.dropWhile (· != '.')) hletters
      rw [List.takeWhile_append_of_pos (hpoint branch),
        List.takeWhile_append_of_pos (hpoint other)] at hfirst
      rw [List.dropWhile_append_of_pos (hpoint branch),
        List.dropWhile_append_of_pos (hpoint other)] at hrest
      have hbranch : branch = other := by
        refine Branch.text_injective (String.toList_inj.1 ?_)
        cases rest <;> cases others <;> simpa using hfirst
      have hothers : rest = others := by
        cases rest with
        | nil => cases others <;> simp_all
        | cons turn rest =>
            cases others with
            | nil => simp at hrest
            | cons next others =>
                refine text_injective (String.toList_inj.1 ?_)
                simpa using hrest
      rw [hbranch, hothers]

/-- What stands at a place itself has the text of the place. -/
theorem join_nil (place : String) : join place (text []) = place := by
  rw [text, join]
  split
  · exact (String.isEmpty_iff.1 ‹_›).symm
  · rfl

theorem colon_not_mem_text : (place : Path) → ':' ∉ place.text.toList
  | [] => by simp [text]
  | branch :: rest => by
      have hbranch : ':' ∉ branch.text.toList := Branch.not_mem_text (by decide) (by decide)
      have hrest := colon_not_mem_text rest
      rw [text_cons]
      split <;> simp_all

theorem text_ne_root (place : Path) : place.text ≠ "root" := by
  cases place with
  | nil => simp [text]
  | cons branch rest =>
      intro h
      have := congrArg String.toList h
      rw [text_cons, Branch.text_toList] at this
      cases branch <;> simp at this

end Path

namespace Push

theorem programIdOf?_append (programId text : String) (h : ':' ∉ text.toList) :
    programIdOf? (programId ++ ":" ++ text) = some programId := by
  have hcolon : ∀ c ∈ text.toList.reverse, decide (c ≠ ':') = true := fun c hc =>
    decide_eq_true fun heq => h (heq ▸ List.mem_reverse.1 hc)
  have hletters : (programId ++ ":" ++ text).toList.reverse =
      text.toList.reverse ++ ':' :: programId.toList.reverse := by simp
  unfold programIdOf?
  rw [hletters, List.dropWhile_append_of_pos hcolon]
  simp

theorem append_root (programId : String) :
    programId ++ ":root" = programId ++ ":" ++ "root" := by
  rw [String.append_assoc]
  rfl

/-- The program of an event is found again from its id. -/
theorem programIdOf?_eventId (programId : String) (place : Path) :
    programIdOf? (eventId programId place.text) = some programId := by
  unfold eventId
  split
  · rw [append_root]
    exact programIdOf?_append programId "root" (by decide)
  · exact programIdOf?_append programId _ place.colon_not_mem_text

/-- The place of a leaf is found again from the id of its event. -/
theorem eventId_injective {programId : String} {first second : Path}
    (h : eventId programId first.text = eventId programId second.text) : first = second := by
  have hcolon (text : String) : (programId ++ ":" ++ text).toList =
      programId.toList ++ ':' :: text.toList := by simp
  have hcancel {one two : String} (heq : programId ++ ":" ++ one = programId ++ ":" ++ two) :
      one = two := by
    have := congrArg String.toList heq
    rw [hcolon, hcolon, List.append_cancel_left_eq] at this
    exact String.toList_inj.1 (List.cons.inj this).2
  unfold eventId at h
  rw [append_root] at h
  split at h <;> rename_i hfirst <;> split at h <;> rename_i hsecond
  · refine Path.text_injective ?_
    rw [String.isEmpty_iff.1 hfirst, String.isEmpty_iff.1 hsecond]
  · exact absurd (hcancel h).symm second.text_ne_root
  · exact absurd (hcancel h) first.text_ne_root
  · exact Path.text_injective (hcancel h)

end Push

end ProgramQueue
