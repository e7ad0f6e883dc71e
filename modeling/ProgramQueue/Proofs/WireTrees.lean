import ProgramQueue.Proofs.Depths
import ProgramQueue.Proofs.Fields

/-!
# Actions and effects read back

Both are trees of tagged values.  The reader goes down one level of its room for each node,
and a node nests at least one level deeper than its children, so the room that a tree needs
is enough.  What is read nests no deeper once it is written again.
-/

namespace ProgramQueue

open Json (Throughout IsExact IsDenoting IsLegible IsSized)
open Wire (Returns Reader Level Content Record tagged tagName returns_str returns_word
  returns_raw returns_bytes returns_uint64 returns_uint32 returns_int64)
open Wire.Field (returns_required returns_optional returns_optionalStr)

variable {level : Level} {room : Nat} {kept : Bool} {json : Json}

/-! ## Actions -/

@[simp]
theorem Status.ofWord_word (status : Status) : Status.ofWord? status.word = some status := by
  cases status <;> rfl

@[simp]
theorem AmountSide.ofWord_word (side : AmountSide) : AmountSide.ofWord? side.word = some side := by
  cases side <;> rfl

namespace Action

theorem returns_status (status : Option Status) (level : Level) :
    statusField.Returns level status :=
  returns_optional (fun status _ => returns_word status.ofWord_word) (fun _ _ => nofun) level

theorem returns_exchange (x : Exchange) (status : Option Status) (level : Level) :
    exchangeRecord.Returns level
      (x.exchangePluginId, x.walletId, x.tokenId, x.nativeAmount, status, ()) :=
  ⟨returns_required (returns_str _) _, returns_required (returns_str _) _,
    returns_optionalStr _ _, returns_required (returns_str _) _, returns_status _ _, trivial⟩

theorem returns_loan (x : Loan) (status : Option Status) (level : Level) :
    loanRecord.Returns level
      (x.borrowPluginId, x.walletId, x.tokenId, x.nativeAmount, x.fromTokenId, status, ()) :=
  ⟨returns_required (returns_str _) _, returns_required (returns_str _) _,
    returns_optionalStr _ _, returns_required (returns_str _) _, returns_optionalStr _ _,
    returns_status _ _, trivial⟩

theorem returns_swap (x : Swap) (status : Option Status) (level : Level) :
    swapRecord.Returns level
      (x.fromWalletId, x.fromTokenId, x.toWalletId, x.toTokenId, x.nativeAmount, x.amountFor,
        x.expectedPayout, status, ()) :=
  ⟨returns_required (returns_str _) _, returns_optionalStr _ _,
    returns_required (returns_str _) _, returns_optionalStr _ _,
    returns_required (returns_str _) _, returns_required (returns_word x.amountFor.ofWord_word) _,
    returns_optionalStr _ _, returns_status _ _, trivial⟩

theorem returns_broadcast (x : Broadcast) (status : Option Status) (level : Level) :
    broadcastRecord.Returns level
      (x.walletId, x.pluginId, x.rawTx, status, ()) :=
  ⟨returns_required (returns_str _) _, returns_required (returns_str _) _,
    returns_required (returns_bytes _) _, returns_status _ _, trivial⟩

/-- A step is read back from what is written of it, by the word for its kind. -/
theorem readStep_members (s : Step) (status : Option Status)
    (hdenoting : (tagged s.typeName (stepMembers status s)).Throughout IsDenoting)
    (hroom : (tagged s.typeName (stepMembers status s)).depth ≤ level.room) :
    readStep level.within (.named (stepMembers status s)) s.typeName = some (.step s status) := by
  cases s with
  | exchangeBuy x =>
      have hread := exchangeRecord.readContent_tagged (by decide) (returns_exchange x status _)
        hdenoting hroom
      simp only [stepMembers, Step.typeName, readStep, readExchange, hread]
      rfl
  | exchangeSell x =>
      have hread := exchangeRecord.readContent_tagged (by decide) (returns_exchange x status _)
        hdenoting hroom
      simp only [stepMembers, Step.typeName, readStep, readExchange, hread]
      rfl
  | loan kind x =>
      have hread := loanRecord.readContent_tagged (by decide) (returns_loan x status _)
        hdenoting hroom
      cases kind
      all_goals
        simp only [stepMembers, Step.typeName, readStep, readLoan, hread]
        rfl
  | swap x =>
      have hread := swapRecord.readContent_tagged (by decide) (returns_swap x status _)
        hdenoting hroom
      simp only [stepMembers, Step.typeName, readStep, hread]
      rfl
  | broadcast x =>
      have hread := broadcastRecord.readContent_tagged (by decide) (returns_broadcast x status _)
        hdenoting hroom
      simp only [stepMembers, Step.typeName, readStep, hread]
      rfl
  | toast message =>
      have heach : toastRecord.Returns level.within (message, status, ()) :=
        ⟨returns_required (returns_str _) _, returns_status _ _, trivial⟩
      have hread := toastRecord.readContent_tagged (by decide) heach hdenoting hroom
      simp only [stepMembers, Step.typeName, readStep, hread]
      rfl
  | delay ms =>
      have heach : delayRecord.Returns level.within (ms, status, ()) :=
        ⟨returns_required (returns_uint64 _) _, returns_status _ _, trivial⟩
      have hread := delayRecord.readContent_tagged (by decide) heach hdenoting hroom
      simp only [stepMembers, Step.typeName, readStep, hread]
      rfl

/-- Nothing but texts and integers is written of a step. -/
theorem exact_step (s : Step) (status : Option Status) :
    (tagged s.typeName (stepMembers status s)).Throughout IsExact := by
  cases s with
  | exchangeBuy | exchangeSell =>
      rw [stepMembers, Wire.exact_tagged]
      simp [exchangeRecord, statusField]
  | loan =>
      rw [stepMembers, Wire.exact_tagged]
      simp [loanRecord, statusField]
  | swap =>
      rw [stepMembers, Wire.exact_tagged]
      simp [swapRecord, statusField]
  | broadcast =>
      rw [stepMembers, Wire.exact_tagged]
      simp [broadcastRecord, statusField]
  | toast =>
      rw [stepMembers, Wire.exact_tagged]
      simp [toastRecord, statusField]
  | delay =>
      rw [stepMembers, Wire.exact_tagged]
      simp [delayRecord, statusField]

mutual

theorem exact : ∀ action : Action, action.toJson.Throughout IsExact
  | .seq children status => by
      have hchildren := exactList children
      rw [toJson, Wire.exact_tagged]
      simpa [nodeRecord, statusField] using hchildren
  | .par children status => by
      have hchildren := exactList children
      rw [toJson, Wire.exact_tagged]
      simpa [nodeRecord, statusField] using hchildren
  | .step s status => exact_step s status

theorem exactList : ∀ children : List Action, ∀ json ∈ listToJson children, json.Throughout IsExact
  | [] => List.forall_mem_nil _
  | child :: rest => List.forall_mem_cons.2 ⟨exact child, exactList rest⟩

end

theorem returns_node (nodes : Json) (status : Option Status) (level : Level) :
    nodeRecord.Returns level (nodes, status, ()) :=
  ⟨returns_required (returns_raw nodes) _, returns_status _ _, trivial⟩

theorem listToJson_eq (children : List Action) : listToJson children = children.map toJson := by
  induction children with
  | nil => rfl
  | cons child rest ih => rw [listToJson, ih, List.map_cons]

theorem typeName_mem (s : Step) : s.typeName ∈ words := by
  cases s with
  | loan kind => cases kind <;> simp [Step.typeName, words]
  | _ => simp [Step.typeName, words]

theorem stepMembers_ne (s : Step) (status : Option Status) :
    ∀ member ∈ stepMembers status s, member.1 ≠ tagName := by
  cases s <;> exact Record.members_ne _ (by decide) _

/-- The word for a step is none for an inner node. -/
theorem ofJsonAt_step {content : Content} {s : Step}
    (htag : Wire.untag words ⟨room + 1, kept⟩ json = some (s.typeName, content)) :
    ofJsonAt (room + 1) kept json =
      readStep (Level.within ⟨room + 1, kept⟩) content s.typeName := by
  rw [ofJsonAt, htag]
  cases s with
  | loan kind => cases kind <;> rfl
  | _ => rfl

/-- With as much room as the action nests, it is read back. -/
theorem ofJsonAt_toJson (action : Action) (hroom : action.toJson.depth ≤ room) :
    ofJsonAt room kept action.toJson = some action := by
  -- the reader goes down one level of its room for each node, and so does the depth
  induction room generalizing kept action with
  | zero => exact absurd hroom (Nat.not_le_of_lt action.depth_pos)
  | succ room ih =>
      have hchildren {children : List Action}
          (hdepth : Json.depthOfItems (listToJson children) + 2 ≤ room + 1) :
          (listToJson children).mapM (ofJsonAt room true) = some children := by
        rw [listToJson_eq] at hdepth ⊢
        exact Wire.mapM_items (by omega) fun child _ => ih child
      have hdenoting := action.exact.denoting
      cases action with
      | seq children status =>
          have hitems := hchildren (depth_seq children status ▸ hroom)
          obtain ⟨htag, hread⟩ := nodeRecord.read_tagged ⟨room + 1, kept⟩ words (by decide)
            (by decide) (by decide) (returns_node _ _ _) hdenoting hroom
          rw [toJson, ofJsonAt, htag]
          simp only [Option.bind_eq_bind, Option.bind_some, hread, hitems]
          rfl
      | par children status =>
          have hitems := hchildren (depth_par children status ▸ hroom)
          obtain ⟨htag, hread⟩ := nodeRecord.read_tagged ⟨room + 1, kept⟩ words (by decide)
            (by decide) (by decide) (returns_node _ _ _) hdenoting hroom
          rw [toJson, ofJsonAt, htag]
          simp only [Option.bind_eq_bind, Option.bind_some, hread, hitems]
          rfl
      | step s status =>
          have htag : Wire.untag words ⟨room + 1, kept⟩ (tagged s.typeName (stepMembers status s)) =
              some (s.typeName, .named (stepMembers status s)) :=
            Wire.untag_tagged (typeName_mem s) (stepMembers_ne s status) hdenoting hroom
          rw [toJson, ofJsonAt_step htag]
          exact readStep_members s status hdenoting hroom

theorem returns (action : Action) : Returns read toJson action := fun _ _ hroom =>
  action.ofJsonAt_toJson hroom

theorem readStep_some {content : Content} {word : String} {action : Action}
    (h : readStep level content word = some action) : ∃ s status, action = .step s status := by
  unfold readStep at h
  split at h
  -- the last case is that of an unknown word
  all_goals
    first
    | cases h
    | obtain ⟨_, -, h⟩ := Option.bind_eq_some_iff.1 h
      cases h
      exact ⟨_, _, rfl⟩

/-- What is read nests no deeper once it is written again. -/
theorem depth_ofJsonAt {action : Action} (h : ofJsonAt room kept json = some action) :
    action.toJson.depth ≤ json.depth := by
  induction room generalizing kept json action with
  | zero => cases h
  | succ room ih =>
      obtain ⟨⟨word, content⟩, htag, h⟩ := Option.bind_eq_some_iff.1 h
      obtain ⟨-, hpositive, hparts⟩ := Wire.untag_parts htag
      have hnode {nodes : Json} {status : Option Status}
          (hread : nodeRecord.readContent (Level.within ⟨room + 1, kept⟩) content =
            some (nodes, status, ())) : nodes.depth < json.depth := by
        obtain ⟨hnodes, -⟩ := nodeRecord.gains_readContent hread hparts
        obtain ⟨part, hpart, hraw⟩ := hnodes.of_required
        obtain rfl := Option.some.inj hraw
        exact hpart
      have hitems {items : List Json} {children : List Action}
          (hdepth : (Json.arr items).depth < json.depth)
          (hread : items.mapM (ofJsonAt room true) = some children) :
          Json.depthOfItems (listToJson children) + 2 ≤ json.depth := by
        have hdepth : Json.depthOfItems items + 1 < json.depth := hdepth
        have hle := Wire.depth_mapM hread ih
        rw [listToJson_eq]
        omega
      dsimp only at h
      split at h
      · obtain ⟨⟨nodes, status, ⟨⟩⟩, hread, h⟩ := Option.bind_eq_some_iff.1 h
        obtain ⟨children, hchildren, h⟩ := Option.bind_eq_some_iff.1 h
        cases h
        rw [depth_seq]
        cases nodes with
        | arr items => exact hitems (hnode hread) hchildren
        | _ => cases hchildren
      · obtain ⟨⟨nodes, status, ⟨⟩⟩, hread, h⟩ := Option.bind_eq_some_iff.1 h
        obtain ⟨children, hchildren, h⟩ := Option.bind_eq_some_iff.1 h
        cases h
        rw [depth_par]
        cases nodes with
        | arr items => exact hitems (hnode hread) hchildren
        | _ => cases hchildren
      · obtain ⟨s, status, rfl⟩ := readStep_some h
        rw [depth_step]
        exact hpositive

theorem depth_le_room {action : Action} (hkept : level.kept = false)
    (h : read level json = some action) : json.depth ≤ level.room := by
  unfold read at h
  cases hroom : level.room with
  | zero =>
      rw [hroom] at h
      cases h
  | succ room =>
      rw [hroom, hkept] at h
      obtain ⟨_, htag, -⟩ := Option.bind_eq_some_iff.1 h
      exact (Wire.untag_parts htag).1 rfl

end Action

/-! ## Effects -/

@[simp]
theorem FailureKind.ofWord_word (kind : FailureKind) :
    FailureKind.ofWord? kind.word = some kind := by
  cases kind <;> rfl

namespace Failure

@[simp]
theorem exact (failure : Failure) : failure.toJson.Throughout IsExact := by
  rw [toJson, Record.throughout_write]
  simp [record]

theorem returns (failure : Failure) : Returns read toJson failure := by
  intro level hdenoting hroom
  have hread : record.read level failure.toJson = some (failure.kind, failure.message, ()) :=
    record.read_write (by decide) hdenoting hroom
      ⟨returns_required (returns_word failure.kind.ofWord_word) _,
        returns_required (returns_str _) _, trivial⟩
  simp only [read, hread]
  rfl

theorem depth_pos {failure : Failure} (h : read level json = some failure) : 0 < json.depth := by
  obtain ⟨_, hread, -⟩ := Option.bind_eq_some_iff.1 h
  exact record.depth_pos hread

end Failure

namespace Condition

variable {condition : Condition}

/-- No rate is given. -/
def IsFloatless : Condition → Prop
  | priceLevel _ above below => above = none ∧ below = none
  | _ => True

theorem exact (h : condition.IsFloatless) :
    (tagged condition.typeName condition.members).Throughout IsExact := by
  cases condition with
  | addressBalance =>
      rw [members, Wire.exact_tagged]
      simp [addressBalanceRecord]
  | txConfs =>
      rw [members, Wire.exact_tagged]
      simp [txConfsRecord]
  | priceLevel =>
      obtain ⟨rfl, rfl⟩ := h
      rw [members, Wire.exact_tagged]
      simp [priceLevelRecord]
  | unixtime =>
      rw [members, Wire.exact_tagged]
      simp [unixtimeRecord]

/-- Rates too are written so that a reader makes something of them. -/
theorem legible (condition : Condition) :
    (tagged condition.typeName condition.members).Throughout IsLegible := by
  cases condition with
  | priceLevel pair above below =>
      have hrate (rate : Double) : (Json.float rate).Throughout IsLegible :=
        .scalar rfl ⟨trivial, trivial⟩
      have hpair : (Json.str pair).Throughout IsLegible := .scalar rfl ⟨trivial, trivial⟩
      rw [members, Wire.throughout_tagged ⟨trivial, trivial⟩]
      simp [priceLevelRecord, hrate, hpair]
  | addressBalance | txConfs | unixtime =>
      refine Throughout.imp (exact ?_) fun _ hexact => hexact.legible
      exact trivial

theorem returns_rate (name : String) (rate : Option Double) (level : Level) :
    (Wire.Field.optional name .double .float).Returns level rate :=
  returns_optional (fun x _ => Wire.returns_double x) (fun _ _ => nofun) level

/-- A condition is read back from what is written of it, by the word for its kind. -/
theorem readContent_members
    (hdenoting : (tagged condition.typeName condition.members).Throughout IsDenoting)
    (hroom : (tagged condition.typeName condition.members).depth ≤ level.room) :
    readContent level.within (.named condition.members) condition.typeName = some condition := by
  cases condition with
  | addressBalance address walletId tokenId above below =>
      have heach : addressBalanceRecord.Returns level.within
          (address, walletId, tokenId, above, below, ()) :=
        ⟨returns_required (returns_str _) _, returns_required (returns_str _) _,
          returns_optionalStr _ _, returns_optionalStr _ _, returns_optionalStr _ _, trivial⟩
      have hread := addressBalanceRecord.readContent_tagged (by decide) heach hdenoting hroom
      simp only [members, typeName, readContent, hread]
      rfl
  | txConfs txId walletId confirmations =>
      have heach : txConfsRecord.Returns level.within (txId, walletId, confirmations, ()) :=
        ⟨returns_required (returns_str _) _, returns_required (returns_str _) _,
          returns_required (returns_uint32 _) _, trivial⟩
      have hread := txConfsRecord.readContent_tagged (by decide) heach hdenoting hroom
      simp only [members, typeName, readContent, hread]
      rfl
  | priceLevel pair above below =>
      have heach : priceLevelRecord.Returns level.within (pair, above, below, ()) :=
        ⟨returns_required (returns_str _) _, returns_rate _ _ _, returns_rate _ _ _, trivial⟩
      have hread := priceLevelRecord.readContent_tagged (by decide) heach hdenoting hroom
      simp only [members, typeName, readContent, hread]
      rfl
  | unixtime timestamp =>
      have heach : unixtimeRecord.Returns level.within (timestamp, ()) :=
        ⟨returns_required (returns_int64 _) _, trivial⟩
      have hread := unixtimeRecord.readContent_tagged (by decide) heach hdenoting hroom
      simp only [members, typeName, readContent, hread]
      rfl

theorem typeName_mem (condition : Condition) : condition.typeName ∈ Effect.words := by
  cases condition <;> simp [typeName, Effect.words]

theorem members_ne (condition : Condition) : ∀ member ∈ condition.members, member.1 ≠ tagName := by
  cases condition <;> exact Record.members_ne _ (by decide) _

end Condition

namespace Effect

/-- What holds of each index of a running sequence, and of each condition. -/
inductive Throughout (fits : Nat → Prop) (holds : Condition → Prop) : Effect → Prop
  | seq {index : Nat} {child : Effect} (hindex : fits index)
      (hchild : Throughout fits holds child) : Throughout fits holds (.seq index child)
  | par {children : List Effect} (h : ∀ child ∈ children, Throughout fits holds child) :
      Throughout fits holds (.par children)
  | await {condition : Condition} (h : holds condition) : Throughout fits holds (.await condition)
  | init : Throughout fits holds .init
  | done {failure : Option Failure} {snapshot : Option (List Effect)}
      (h : ∀ branches, snapshot = some branches → ∀ branch ∈ branches,
        Throughout fits holds branch) : Throughout fits holds (.done failure snapshot)

theorem Throughout.imp {effect : Effect} {fits fits' : Nat → Prop} {holds holds' : Condition → Prop}
    (h : effect.Throughout fits holds) (hfits : ∀ index, fits index → fits' index)
    (hholds : ∀ condition, holds condition → holds' condition) :
    effect.Throughout fits' holds' := by
  induction h with
  | seq hindex _ ih => exact .seq (hfits _ hindex) ih
  | par _ ih => exact .par ih
  | await h => exact .await (hholds _ h)
  | init => exact .init
  | done _ ih => exact .done ih

/-- Every index is one of 64 bits. -/
def IsIndexed : Effect → Prop := Throughout (· < 2 ^ 64) fun _ => True

/-- No rate is waited for. -/
def IsFloatless : Effect → Prop := Throughout (fun _ => True) Condition.IsFloatless

theorem listToJson_eq (children : List Effect) : listToJson children = children.map toJson := by
  induction children with
  | nil => rfl
  | cons child rest ih => rw [listToJson, ih, List.map_cons]

section

variable {holds : Json → Prop} (hholds : ∀ {json}, Json.IsExact json → holds json)

include hholds

theorem throughout_seq {index : Nat} {child : Effect} :
    (seq index child).toJson.Throughout holds ↔
      (Wire.nat index).Throughout holds ∧ child.toJson.Throughout holds := by
  rw [toJson, Wire.throughout_tagged (hholds ⟨trivial, trivial, trivial⟩)]
  simp [seqRecord]

theorem throughout_par {children : List Effect} : (par children).toJson.Throughout holds ↔
    ∀ child ∈ children, child.toJson.Throughout holds := by
  rw [toJson, Wire.throughout_tagged (hholds ⟨trivial, trivial, trivial⟩), listToJson_eq]
  simp [parRecord]

theorem throughout_done {failure : Option Failure} {snapshot : Option (List Effect)} :
    (done failure snapshot).toJson.Throughout holds ↔
      ∀ branches, snapshot = some branches →
        ∀ branch ∈ branches, branch.toJson.Throughout holds := by
  have hfailure (failure : Failure) : failure.toJson.Throughout holds :=
    failure.exact.imp fun _ => hholds
  cases snapshot with
  | none =>
      rw [toJson, Wire.throughout_tagged (hholds ⟨trivial, trivial, trivial⟩)]
      simp [doneRecord, hfailure]
  | some branches =>
      rw [toJson, Wire.throughout_tagged (hholds ⟨trivial, trivial, trivial⟩), listToJson_eq]
      simp [doneRecord, hfailure]

/-- What holds of all scalars without rates holds of an effect if it does of its indices and of
what is waited for. -/
theorem throughout_toJson {effect : Effect} (h : effect.Throughout
    (fun index => (Wire.nat index).Throughout holds) fun condition =>
      (tagged condition.typeName condition.members).Throughout holds) :
    effect.toJson.Throughout holds := by
  induction h with
  | seq hindex _ ih => exact (throughout_seq hholds).2 ⟨hindex, ih⟩
  | par _ ih => exact (throughout_par hholds).2 ih
  | await h => exact h
  | init =>
      have hword : holds (.str "init") := hholds ⟨trivial, trivial, trivial⟩
      exact .obj (List.forall_mem_singleton.2 (.scalar rfl hword))
  | done _ ih => exact (throughout_done hholds).2 ih

end

theorem legible {effect : Effect} (h : effect.IsIndexed) : effect.toJson.Throughout IsLegible :=
  throughout_toJson Json.IsExact.legible <| h.imp
    (fun _ hindex => (Wire.exact_nat hindex).imp fun _ hexact => hexact.legible)
    fun condition _ => condition.legible

theorem floatless {effect : Effect} (h : effect.IsFloatless) :
    effect.toJson.Throughout Json.IsFloatless :=
  throughout_toJson Json.IsExact.floatless <| h.imp (fun _ _ => .scalar rfl trivial)
    fun _ hcondition => (Condition.exact hcondition).imp fun _ hexact => hexact.floatless

theorem exact {effect : Effect} (hindexed : effect.IsIndexed) (hfloatless : effect.IsFloatless) :
    effect.toJson.Throughout IsExact :=
  ((legible hindexed).and (floatless hfloatless)).imp fun _ h =>
    ⟨h.1.sized, h.2, h.1.denoting⟩

theorem returns_seq {index : Nat} (h : index < 2 ^ 64) (child : Json) (level : Level) :
    seqRecord.Returns level (index, child, ()) :=
  ⟨returns_required (Wire.returns_natBelow h) _, returns_required (returns_raw child) _, trivial⟩

theorem returns_par (nodes : Json) (level : Level) : parRecord.Returns level (nodes, ()) :=
  ⟨returns_required (returns_raw nodes) _, trivial⟩

theorem returns_done (failure : Option Failure) (snapshot : Option Json)
    (h : ∀ nodes ∈ snapshot, nodes ≠ .null) (level : Level) :
    doneRecord.Returns level (failure, snapshot, ()) :=
  ⟨returns_optional (fun failure _ => Failure.returns failure) (fun _ _ => nofun) _,
    returns_optional (fun nodes _ => returns_raw nodes) h _, trivial⟩

/-- The word for a condition is none for an effect of another kind. -/
theorem ofJsonAt_await {content : Content} {condition : Condition}
    (htag : Wire.untag words ⟨room + 1, kept⟩ json = some (condition.typeName, content)) :
    ofJsonAt (room + 1) kept json =
      (Condition.readContent (Level.within ⟨room + 1, kept⟩) content condition.typeName).map
        await := by
  rw [ofJsonAt, htag]
  cases condition <;> rfl

theorem depth_done (failure : Option Failure) (branches : List Effect) :
    (done failure (some branches)).toJson.depth = Json.depthOfItems (listToJson branches) + 2 := by
  cases failure with
  | none => simp [toJson, doneRecord, Json.depth]
  | some failure => exact depth_snapshot failure branches

/-- With as much room as the effect nests, it is read back. -/
theorem ofJsonAt_toJson {effect : Effect} (hindexed : effect.IsIndexed)
    (hroom : effect.toJson.depth ≤ room) :
    ofJsonAt room kept effect.toJson = some effect := by
  induction room generalizing kept effect with
  | zero => exact absurd hroom (Nat.not_le_of_lt effect.depth_pos)
  | succ room ih =>
      have hchildren {children : List Effect}
          (hindexed : ∀ child ∈ children, child.IsIndexed)
          (hdepth : Json.depthOfItems (listToJson children) + 2 ≤ room + 1) :
          (listToJson children).mapM (ofJsonAt room true) = some children := by
        rw [listToJson_eq] at hdepth ⊢
        exact Wire.mapM_items (by omega) fun child hchild => ih (hindexed child hchild)
      have hdenoting := (legible hindexed).imp fun _ h => h.denoting
      cases effect with
      | seq index child =>
          have hdepth := Nat.le_of_succ_le_succ (depth_seq index child ▸ hroom)
          cases hindexed with
          | seq hindex hindexed =>
              obtain ⟨htag, hread⟩ := seqRecord.read_tagged ⟨room + 1, kept⟩ words (by decide)
                (by decide) (by decide) (returns_seq hindex _ _) hdenoting hroom
              rw [toJson, ofJsonAt, htag]
              simp only [Option.bind_eq_bind, Option.bind_some, hread, ih hindexed hdepth]
              rfl
      | par children =>
          cases hindexed with
          | par hindexed =>
              have hitems := hchildren hindexed (depth_par children ▸ hroom)
              obtain ⟨htag, hread⟩ := parRecord.read_tagged ⟨room + 1, kept⟩ words (by decide)
                (by decide) (by decide) (returns_par _ _) hdenoting hroom
              rw [toJson, ofJsonAt, htag]
              simp only [Option.bind_eq_bind, Option.bind_some, hread, hitems]
              rfl
      | await condition =>
          have htag : Wire.untag words ⟨room + 1, kept⟩
              (tagged condition.typeName condition.members) =
                some (condition.typeName, .named condition.members) :=
            Wire.untag_tagged condition.typeName_mem condition.members_ne hdenoting hroom
          have hread : Condition.readContent (Level.within ⟨room + 1, kept⟩)
              (.named condition.members) condition.typeName = some condition :=
            Condition.readContent_members hdenoting hroom
          rw [toJson, ofJsonAt_await htag, hread]
          rfl
      | init =>
          have htag : Wire.untag words ⟨room + 1, kept⟩ (tagged "init" []) =
              some ("init", .named []) :=
            Wire.untag_tagged (by decide) (List.forall_mem_nil _) hdenoting hroom
          rw [toJson, ofJsonAt, htag]
          rfl
      | done failure snapshot =>
          cases snapshot with
          | none =>
              obtain ⟨htag, hread⟩ := doneRecord.read_tagged ⟨room + 1, kept⟩ words (by decide)
                (by decide) (by decide) (returns_done failure none (by simp) _) hdenoting hroom
              rw [toJson, ofJsonAt, htag]
              simp only [Option.bind_eq_bind, Option.bind_some, hread]
              rfl
          | some branches =>
              cases hindexed with
              | done hindexed =>
                  have hitems := hchildren (hindexed branches rfl)
                    (depth_done failure branches ▸ hroom)
                  obtain ⟨htag, hread⟩ := doneRecord.read_tagged ⟨room + 1, kept⟩ words (by decide)
                    (by decide) (by decide)
                    (returns_done failure (some (.arr (listToJson branches))) (by simp) _)
                    hdenoting hroom
                  rw [toJson, ofJsonAt, htag]
                  simp only [Option.bind_eq_bind, Option.bind_some, hread, hitems]
                  rfl

theorem returns {effect : Effect} (h : effect.IsIndexed) : Returns read toJson effect :=
  fun _ _ hroom => ofJsonAt_toJson h hroom

/-- What is read is indexed, and nests no deeper once it is written again. -/
theorem gains_ofJsonAt {effect : Effect} (h : ofJsonAt room kept json = some effect) :
    effect.IsIndexed ∧ effect.toJson.depth ≤ json.depth := by
  -- a value is taken in whole before its parts are read, so each of them nests less deep
  induction room generalizing kept json effect with
  | zero => cases h
  | succ room ih =>
      obtain ⟨⟨word, content⟩, htag, h⟩ := Option.bind_eq_some_iff.1 h
      obtain ⟨-, hpositive, hparts⟩ := Wire.untag_parts htag
      have hitems {items : List Json} {children : List Effect}
          (hdepth : (Json.arr items).depth < json.depth)
          (hread : items.mapM (ofJsonAt room true) = some children) :
          (∀ child ∈ children, child.IsIndexed) ∧
            Json.depthOfItems (listToJson children) + 2 ≤ json.depth := by
        have hdepth : Json.depthOfItems items + 1 < json.depth := hdepth
        have hle := Wire.depth_mapM hread fun heq => (ih heq).2
        refine ⟨fun child hchild => ?_, ?_⟩
        · obtain ⟨_, -, heq⟩ := mem_of_mapM hread child hchild
          exact (ih heq).1
        · rw [listToJson_eq]
          omega
      dsimp only at h
      split at h
      · obtain ⟨⟨index, child, ⟨⟩⟩, hread, h⟩ := Option.bind_eq_some_iff.1 h
        obtain ⟨effect, heffect, h⟩ := Option.bind_eq_some_iff.1 h
        cases h
        obtain ⟨hindex, hchild, -⟩ := seqRecord.gains_readContent hread hparts
        obtain ⟨_, -, hindex⟩ := hindex.of_required
        obtain ⟨part, hpart, hraw⟩ := hchild.of_required
        obtain rfl := Option.some.inj hraw
        obtain ⟨hindexed, hdepth⟩ := ih heffect
        refine ⟨.seq (Wire.lt_of_natBelow hindex) hindexed, ?_⟩
        rw [depth_seq]
        exact Nat.lt_of_le_of_lt hdepth hpart
      · obtain ⟨⟨nodes, ⟨⟩⟩, hread, h⟩ := Option.bind_eq_some_iff.1 h
        obtain ⟨effects, heffects, h⟩ := Option.bind_eq_some_iff.1 h
        cases h
        obtain ⟨hnodes, -⟩ := parRecord.gains_readContent hread hparts
        obtain ⟨part, hpart, hraw⟩ := hnodes.of_required
        obtain rfl := Option.some.inj hraw
        cases part with
        | arr items =>
            obtain ⟨hindexed, hdepth⟩ := hitems hpart heffects
            exact ⟨.par hindexed, depth_par effects ▸ hdepth⟩
        | _ => cases heffects
      · split at h
        · cases h
          exact ⟨.init, hpositive⟩
        · cases h
      · obtain ⟨⟨failure, snapshot, ⟨⟩⟩, hread, h⟩ := Option.bind_eq_some_iff.1 h
        obtain ⟨hfailure, hsnapshot, -⟩ := doneRecord.gains_readContent hread hparts
        cases snapshot with
        | none =>
            cases h
            refine ⟨.done (by simp), ?_⟩
            cases failure with
            | none => exact hpositive
            | some failure =>
                obtain ⟨part, hpart, -, hread⟩ := hfailure.of_optional failure rfl
                have hdepth := Nat.lt_of_le_of_lt (Failure.depth_pos hread) hpart
                exact (depth_failed failure).trans_le hdepth
        | some nodes =>
            obtain ⟨branches, hbranches, h⟩ := Option.bind_eq_some_iff.1 h
            cases h
            obtain ⟨part, hpart, -, hraw⟩ := hsnapshot.of_optional nodes rfl
            obtain rfl := Option.some.inj hraw
            cases part with
            | arr items =>
                obtain ⟨hindexed, hdepth⟩ := hitems hpart hbranches
                refine ⟨.done fun _ heq => ?_, depth_done failure branches ▸ hdepth⟩
                obtain rfl := Option.some.inj heq
                exact hindexed
            | _ => cases hbranches
      · obtain ⟨condition, -, rfl⟩ := Option.map_eq_some_iff.1 h
        exact ⟨.await trivial, depth_await condition ▸ hpositive⟩

theorem depth_le_room {effect : Effect} (hkept : level.kept = false)
    (h : read level json = some effect) : json.depth ≤ level.room := by
  unfold read at h
  cases hroom : level.room with
  | zero =>
      rw [hroom] at h
      cases h
  | succ room =>
      rw [hroom, hkept] at h
      obtain ⟨_, htag, -⟩ := Option.bind_eq_some_iff.1 h
      exact (Wire.untag_parts htag).1 rfl

end Effect

end ProgramQueue
