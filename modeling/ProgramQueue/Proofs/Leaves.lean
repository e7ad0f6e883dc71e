import ProgramQueue.Proofs.Logs
import ProgramQueue.Interpreter

/-!
# What a leaf comes to

A step that is started has completed, or is waited for, or has failed; the only
deadline it is ever waited for is a reading of the clock and a delay after it.  A
condition that is checked is still waited for, or is over.
-/

namespace ProgramQueue

open ProgramQueue.Task (Follows follows_pure follows_bind follows_bindOk follows_lift
  follows_pureExcept follows_throw follows_request)

/-- If a condition is a deadline, it is some time after a reading of the clock. -/
def Condition.Timed (log : Log Outside) (condition : Condition) : Prop :=
  ∀ timestamp, condition = .unixtime timestamp →
    ∃ now ms, (⟨.clock, now⟩ : Answered Outside) ∈ log ∧
      timestamp = Step.addMillis now ms

namespace Step

/-- The effects that a step comes to once it has been started. -/
def Comes (log : Log Outside) (effect : Effect) : Prop :=
  effect = .completed ∨ ∃ condition, effect = .await condition ∧ condition.Timed log

/-- What a step comes to if it is started without an error: it is over, or waits for a
transaction, a payout or a deadline. -/
inductive Yields (log : Log Outside) : Effect → Prop
  | completed : Yields log .completed
  | transaction (walletId txId : String) : Yields log (awaitTx walletId txId)
  | payout (address walletId : String) (tokenId above : Option String) :
      Yields log (.await (.addressBalance address walletId tokenId above none))
  | deadline {now : Int64} (ms : UInt64) (hclock : (⟨.clock, now⟩ : Answered Outside) ∈ log) :
      Yields log (.await (.unixtime (addMillis now ms)))

theorem Yields.comes {log : Log Outside} {effect : Effect} (h : Yields log effect) :
    Comes log effect := by
  cases h with
  | completed => exact Or.inl rfl
  | transaction => exact Or.inr ⟨_, rfl, fun _ heq => by cases heq⟩
  | payout => exact Or.inr ⟨_, rfl, fun _ heq => by cases heq⟩
  | deadline ms hclock =>
      refine Or.inr ⟨_, rfl, fun timestamp heq => ?_⟩
      cases heq
      exact ⟨_, ms, hclock, rfl⟩

theorem startSell_yields {order : Exchange} {log : Log Outside} {effect : Effect}
    (h : (startSell order).run.Follows log (.ok effect)) : Yields log effect := by
  obtain ⟨_, deposit, _, rfl, -, h⟩ := follows_bindOk.1 h
  obtain ⟨_, txId, _, rfl, -, h⟩ := follows_bindOk.1 h
  obtain ⟨rfl, heq⟩ := follows_pureExcept.1 h
  cases heq
  exact .transaction _ _

theorem startBuy_yields {order : Exchange} {log : Log Outside} {effect : Effect}
    (h : (startBuy order).run.Follows log (.ok effect)) : Yields log effect := by
  obtain ⟨_, balance, _, rfl, -, h⟩ := follows_bindOk.1 h
  obtain ⟨_, address, _, rfl, -, h⟩ := follows_bindOk.1 h
  obtain ⟨_, above, _, rfl, -, h⟩ := follows_bindOk.1 h
  obtain ⟨_, placed, _, rfl, -, h⟩ := follows_bindOk.1 h
  obtain ⟨rfl, heq⟩ := follows_pureExcept.1 h
  cases heq
  exact .payout _ _ _ _

theorem startLoan_yields {kind : LoanKind} {terms : Loan} {log : Log Outside}
    {effect : Effect} (h : (startLoan kind terms).run.Follows log (.ok effect)) :
    Yields log effect := by
  obtain ⟨_, info, _, rfl, -, h⟩ := follows_bindOk.1 h
  obtain ⟨_, amount, _, rfl, -, h⟩ := follows_bindOk.1 h
  obtain ⟨_, txs, _, rfl, -, h⟩ := follows_bindOk.1 h
  cases hlast : txs.getLast? with
  | none =>
      rw [hlast] at h
      obtain ⟨-, heq⟩ := follows_throw.1 h
      cases heq
  | some last =>
      rw [hlast] at h
      obtain ⟨rfl, heq⟩ := follows_pureExcept.1 h
      cases heq
      exact .transaction _ _

theorem startSwap_yields {order : Swap} {log : Log Outside} {effect : Effect}
    (h : (startSwap order).run.Follows log (.ok effect)) : Yields log effect := by
  obtain ⟨_, sender, _, rfl, -, h⟩ := follows_bindOk.1 h
  obtain ⟨_, receiver, _, rfl, -, h⟩ := follows_bindOk.1 h
  obtain ⟨_, balance, _, rfl, -, h⟩ := follows_bindOk.1 h
  obtain ⟨_, receipt, _, rfl, -, h⟩ := follows_bindOk.1 h
  obtain ⟨_, payout, _, rfl, -, h⟩ := follows_bindOk.1 h
  obtain ⟨_, above, _, rfl, -, h⟩ := follows_bindOk.1 h
  obtain ⟨rfl, heq⟩ := follows_pureExcept.1 h
  cases heq
  exact .payout _ _ _ _

/-- A delay is over on the spot, or waits for a deadline after the present. -/
theorem startDelay_yields {inlineCap : Nat} {ms : UInt64} {log : Log Outside}
    {effect : Effect} (h : (startDelay inlineCap ms).Follows log effect) :
    Yields log effect := by
  unfold startDelay at h
  split at h
  · obtain ⟨_, _, _, rfl, -, h⟩ := follows_bind.1 h
    obtain ⟨rfl, rfl⟩ := follows_pure.1 h
    exact .completed
  · obtain ⟨_, now, _, rfl, hclock, h⟩ := follows_bind.1 h
    obtain ⟨rfl, rfl⟩ := follows_pure.1 h
    obtain rfl := follows_request.1 hclock
    exact .deadline ms List.mem_cons_self

theorem start_yields {inlineCap : Nat} {step : Step} {log : Log Outside}
    {effect : Effect} (h : (step.start inlineCap).run.Follows log (.ok effect)) :
    Yields log effect := by
  cases step with
  | exchangeSell order => exact startSell_yields h
  | exchangeBuy order => exact startBuy_yields h
  | loan kind terms => exact startLoan_yields h
  | swap order => exact startSwap_yields h
  | broadcast transaction =>
      obtain ⟨_, txId, _, rfl, -, h⟩ := follows_bindOk.1 h
      obtain ⟨rfl, heq⟩ := follows_pureExcept.1 h
      cases heq
      exact .transaction _ _
  | toast message =>
      obtain ⟨_, shown, _, rfl, -, h⟩ := follows_bindOk.1 h
      obtain ⟨rfl, heq⟩ := follows_pureExcept.1 h
      cases heq
      exact .completed
  | delay ms =>
      obtain ⟨value, heq, h⟩ := follows_lift.1 h
      cases heq
      exact startDelay_yields h

/-- A step that is started without an error has completed or is waited for. -/
theorem start_comes {inlineCap : Nat} {step : Step} {log : Log Outside}
    {effect : Effect} (h : (step.start inlineCap).run.Follows log (.ok effect)) :
    Comes log effect :=
  (start_yields h).comes

end Step

namespace Effect

/-- A step that was started has completed, has failed, or is waited for. -/
theorem ofStart_cases {inlineCap : Nat} {step : Step} {log : Log Outside}
    {result : Except CollaboratorError Effect}
    (h : (step.start inlineCap).run.Follows log result) :
    (∃ failure, ofStart result = .done failure none) ∨
      ∃ condition, ofStart result = .await condition ∧ condition.Timed log := by
  cases result with
  | error e => exact Or.inl ⟨some e.toFailure, rfl⟩
  | ok effect =>
      obtain rfl | ⟨condition, rfl, htimed⟩ := Step.start_comes h
      · exact Or.inl ⟨none, rfl⟩
      · exact Or.inr ⟨condition, rfl, htimed⟩

/-- A leaf that was checked has completed, has failed, or is waited for as before. -/
theorem ofCheck_cases (pending : Effect) (result : Except CollaboratorError Check) :
    (∃ failure, ofCheck pending result = .done failure none) ∨
      ofCheck pending result = pending := by
  cases result with
  | ok found =>
      cases found with
      | satisfied => exact Or.inl ⟨none, rfl⟩
      | pending => exact Or.inr rfl
      | failed reason => exact Or.inl ⟨some ⟨.execution, reason⟩, rfl⟩
  | error e =>
      cases htransient : e.isTransient with
      | true => exact Or.inr (if_pos htransient)
      | false =>
          refine Or.inl ⟨some e.toFailure, if_neg ?_⟩
          rw [htransient]
          exact Bool.false_ne_true

end Effect

end ProgramQueue
