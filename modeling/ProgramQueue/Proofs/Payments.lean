import ProgramQueue.Proofs.Amounts
import ProgramQueue.Proofs.Histories

/-!
# Funds that are moved for a step that cannot work

A step is rejected if what it asks for can never work.  Every kind of step but one finds
this out before it moves funds.  A swap is approved first, and the balance that it waits
for is computed afterwards, so it is rejected after its funds have been moved whenever
that balance is no amount.
-/

namespace ProgramQueue

open ProgramQueue.Task (follows_bindExcept follows_bindOk follows_pureExcept follows_throw
  follows_request follows_lift follows_bind follows_pure follows_done follows_run)

/-- The request moves funds, and it was carried out. -/
def Answered.paid : Answered Outside → Bool
  | ⟨.send _ _ _ _, .ok _⟩ => true
  | ⟨.broadcast _ _, .ok _⟩ => true
  | ⟨.approveLoan _, .ok _⟩ => true
  | ⟨.approveSwap _, .ok _⟩ => true
  | ⟨.placeBuy _ _, .ok _⟩ => true
  | _ => false

/-- Funds were moved by a request of the log. -/
def Paid (log : Log Outside) : Prop := ∃ entry ∈ log, entry.paid = true

/-- The step can never work. -/
def Rejected {α : Type} (result : Except CollaboratorError α) : Prop :=
  ∃ e, result = .error e ∧ e.isValidation = true

namespace Swap

/-- The payout that is waited for, as a number: the one that was named, else the quoted
one, less a tenth if it is the sent amount that is fixed. -/
def Awaits (order : Swap) (quoted : String) (payout : Nat) : Prop :=
  match order.expectedPayout, order.amountFor with
  | some expected, _ => Amount.value? expected = some payout
  | none, .sent => ∃ quote, Amount.value? quoted = some quote ∧
      quote * Step.payoutPercent < Amount.bound ∧ payout = quote * Step.payoutPercent / 100
  | none, .received => Amount.value? quoted = some payout

/-- The balance and the payout that is waited for are amounts, and so is their sum. -/
def Payable (order : Swap) (balance quoted : String) : Prop :=
  ∃ held payout, Amount.value? balance = some held ∧ order.Awaits quoted payout ∧
    held + payout < Amount.bound

/-- What the provider is asked for. -/
def request (order : Swap) : SwapRequest where
  fromWalletId := order.fromWalletId
  fromTokenId := order.fromTokenId
  toWalletId := order.toWalletId
  toTokenId := order.toTokenId
  nativeAmount := order.nativeAmount
  amountFor := order.amountFor

/-- A swap was approved although the balance to wait for is no amount. -/
def ApprovedInVain (order : Swap) (log : Log Outside) : Prop :=
  ∃ balance receipt,
    ⟨.balance order.toWalletId order.toTokenId, .ok balance⟩ ∈ log ∧
      ⟨.approveSwap order.request, .ok receipt⟩ ∈ log ∧
        ¬order.Payable balance receipt.payoutAmount

end Swap

variable {α β : Type} {log first later : Log Outside}

/-! ## Steps that look before they pay -/

theorem paid_append : Paid (first ++ later) ↔ Paid first ∨ Paid later := by
  simp only [Paid, List.mem_append, or_and_right, exists_or]

namespace Calling

/-- The task moves no funds. -/
def Looks (task : Calling α) : Prop := ∀ log result, task.run.Follows log result → ¬Paid log

/-- The task is never rejected. -/
def Sure (task : Calling α) : Prop := ∀ log result, task.run.Follows log result → ¬Rejected result

/-- The task is not rejected once it has moved funds. -/
def Careful (task : Calling α) : Prop :=
  ∀ log result, task.run.Follows log result → Rejected result → ¬Paid log

variable {task : Calling α} {f : α → Calling β}

theorem Sure.careful (h : task.Sure) : task.Careful := fun log result hlog hrejected =>
  absurd hrejected (h log result hlog)

theorem Looks.careful (h : task.Looks) : task.Careful := fun log result hlog _ => h log result hlog

/-- A request that moves no funds, whatever the answer. -/
theorem looks_of_request (query : Query) (answer : Except CollaboratorError α → query.Answer)
    (hask : ∀ log result, task.run.Follows log result → log = [⟨query, answer result⟩])
    (hfree : ∀ result, Answered.paid ⟨query, answer result⟩ = false) : task.Looks := by
  intro log result h hpaid
  obtain rfl := hask log result h
  obtain ⟨entry, hentry, hmoved⟩ := hpaid
  obtain rfl := List.mem_singleton.1 hentry
  cases (hfree result).symm.trans hmoved

/-- A request that moves no funds if it is refused. -/
theorem careful_of_request (query : Query) (answer : Except CollaboratorError α → query.Answer)
    (hask : ∀ log result, task.run.Follows log result → log = [⟨query, answer result⟩])
    (hrefused : ∀ e, Answered.paid ⟨query, answer (.error e)⟩ = false) : task.Careful := by
  rintro log _ h ⟨e, rfl, -⟩ hpaid
  obtain rfl := hask log _ h
  obtain ⟨entry, hentry, hmoved⟩ := hpaid
  obtain rfl := List.mem_singleton.1 hentry
  cases (hrefused e).symm.trans hmoved

theorem looks_amount (result : Except Amount.Error α) : Looks (Outside.amount result) := by
  intro log given h hpaid
  obtain ⟨rfl, -⟩ := follows_done.1 h
  obtain ⟨_, hentry, -⟩ := hpaid
  cases hentry

theorem sure_pure (value : α) : Sure (pure value : Calling α) := by
  rintro log _ h ⟨e, rfl, -⟩
  cases (follows_pureExcept.1 h).2

/-- Funds are moved only when what is looked up before has been found. -/
theorem Looks.paid_bind (htask : task.Looks) {result : Except CollaboratorError β}
    (h : (task >>= f).run.Follows log result) (hpaid : Paid log) :
    ∃ first value later, log = first ++ later ∧ task.run.Follows first (.ok value) ∧
      (f value).run.Follows later result ∧ Paid later := by
  obtain ⟨e, -, hlog⟩ | ⟨first, value, later, rfl, hfirst, hlater⟩ := follows_bindExcept.1 h
  · exact absurd hpaid (htask log _ hlog)
  · have hrest := (paid_append.1 hpaid).resolve_left (htask first _ hfirst)
    exact ⟨first, value, later, rfl, hfirst, hlater, hrest⟩

/-- What is looked up before funds are moved may be found wrong. -/
theorem Looks.bind (htask : task.Looks) (hf : ∀ value, (f value).Careful) :
    Careful (task >>= f) := by
  intro log result h hrejected hpaid
  obtain ⟨_, value, later, -, -, hlater, hrest⟩ := htask.paid_bind h hpaid
  exact hf value later result hlater hrejected hrest

/-- Nothing may be found wrong after funds have been moved. -/
theorem Careful.bind (htask : task.Careful) (hf : ∀ value, (f value).Sure) :
    Careful (task >>= f) := by
  intro log result h hrejected
  obtain ⟨e, rfl, hlog⟩ | ⟨first, value, later, rfl, hfirst, hlater⟩ := follows_bindExcept.1 h
  · obtain ⟨_, heq, hinvalid⟩ := hrejected
    cases heq
    exact htask log _ hlog ⟨e, rfl, hinvalid⟩
  · exact absurd hrejected (hf value later result hlater)

end Calling

namespace Outside

open Calling

theorem looks_walletInfo (walletId : String) : Looks (walletInfo walletId) :=
  looks_of_request (.walletInfo walletId) id (fun _ _ => follows_request.1) fun _ => rfl

theorem looks_balance (walletId : String) (tokenId : Option String) :
    Looks (balance walletId tokenId) :=
  looks_of_request (.balance walletId tokenId) id (fun _ _ => follows_request.1) fun _ => rfl

theorem looks_receiveAddress (walletId : String) (tokenId : Option String) :
    Looks (receiveAddress walletId tokenId) :=
  looks_of_request (.receiveAddress walletId tokenId) id (fun _ _ => follows_request.1) fun _ => rfl

theorem looks_depositAddress (order : Exchange) : Looks (depositAddress order) :=
  looks_of_request (.depositAddress order) id (fun _ _ => follows_request.1) fun _ => rfl

theorem looks_toast (message : String) : Looks (toast message) :=
  looks_of_request (.toast message) id (fun _ _ => follows_request.1) fun _ => rfl

theorem careful_send (walletId : String) (tokenId : Option String) (amount address : String) :
    Careful (send walletId tokenId amount address) :=
  careful_of_request (.send walletId tokenId amount address) id (fun _ _ => follows_request.1)
    fun _ => rfl

theorem careful_broadcast (walletId : String) (rawTx : List UInt8) :
    Careful (broadcast walletId rawTx) :=
  careful_of_request (.broadcast walletId rawTx) id (fun _ _ => follows_request.1) fun _ => rfl

theorem careful_approveLoan (request : LoanRequest) : Careful (approveLoan request) :=
  careful_of_request (.approveLoan request) id (fun _ _ => follows_request.1) fun _ => rfl

theorem careful_placeBuy (order : Exchange) (payoutAddress : String) :
    Careful (placeBuy order payoutAddress) :=
  careful_of_request (.placeBuy order payoutAddress) id (fun _ _ => follows_request.1) fun _ => rfl

end Outside

namespace Step

open Calling Outside

theorem startSell_careful (order : Exchange) : (startSell order).Careful := by
  apply (looks_depositAddress order).bind
  intro deposit
  apply (careful_send _ _ _ _).bind
  exact fun txId => sure_pure _

theorem startBuy_careful (order : Exchange) : (startBuy order).Careful := by
  apply (looks_balance _ _).bind
  intro balance
  apply (looks_receiveAddress _ _).bind
  intro address
  apply (looks_amount _).bind
  intro above
  apply (careful_placeBuy _ _).bind
  exact fun placed => sure_pure _

theorem startLoan_careful (kind : LoanKind) (terms : Loan) : (startLoan kind terms).Careful := by
  apply (looks_walletInfo _).bind
  intro info
  apply (looks_amount _).bind
  intro amount
  apply (careful_approveLoan _).bind
  rintro txs log result h ⟨e, rfl, hinvalid⟩
  -- a loan that was approved without a transaction fails, but is not rejected
  cases hlast : txs.getLast? with
  | none =>
      rw [hlast] at h
      cases (follows_throw.1 h).2
      cases hinvalid
  | some last =>
      rw [hlast] at h
      cases (follows_pureExcept.1 h).2

theorem startDelay_looks (inlineCap : Nat) (ms : UInt64) :
    Looks (ExceptT.lift (startDelay inlineCap ms)) := by
  intro log result h hpaid
  obtain ⟨effect, -, h⟩ := follows_lift.1 h
  obtain ⟨entry, hentry, hmoved⟩ := hpaid
  unfold startDelay at h
  split at h <;>
  · obtain ⟨_, _, _, rfl, hask, hrest⟩ := follows_bind.1 h
    obtain rfl := follows_request.1 hask
    obtain ⟨rfl, -⟩ := follows_pure.1 hrest
    obtain rfl := List.mem_singleton.1 hentry
    cases hmoved

/-- Only a swap can be rejected after it has moved funds. -/
theorem start_careful (inlineCap : Nat) {step : Step} (h : ∀ order, step ≠ .swap order) :
    (step.start inlineCap).Careful := by
  cases step with
  | exchangeSell order => exact startSell_careful order
  | exchangeBuy order => exact startBuy_careful order
  | loan kind terms => exact startLoan_careful kind terms
  | swap order => exact absurd rfl (h order)
  | broadcast transaction =>
      apply (careful_broadcast _ _).bind
      exact fun txId => sure_pure _
  | toast message =>
      apply (looks_toast _).bind
      exact fun shown => (sure_pure _).careful
  | delay ms => exact (startDelay_looks inlineCap ms).careful

end Step

/-! ## Swaps -/

namespace Swap

variable {order : Swap} {balance quoted payout : String}
  {result : Except CollaboratorError Effect}

/-- The payout that is waited for is written as it was named or quoted, or it is a whole
number of hundredths of the quote. -/
theorem awaits_iff {n : Nat} :
    order.Awaits quoted n ↔
      ∃ payout, Step.awaitedPayout order quoted = .ok payout ∧ Amount.value? payout = some n := by
  unfold Awaits Step.awaitedPayout
  cases order.expectedPayout with
  | some expected => simp
  | none =>
      cases order.amountFor with
      | received => simp
      | sent =>
          simp only [Amount.percentOf_ok_iff]
          constructor
          · rintro ⟨quote, hquote, hfits, rfl⟩
            refine ⟨_, ⟨quote, hquote, hfits, rfl⟩, Amount.value?_text ?_⟩
            exact Nat.lt_of_le_of_lt (Nat.div_le_self _ _) hfits
          · rintro ⟨_, ⟨quote, hquote, hfits, rfl⟩, hvalue⟩
            rw [Amount.value?_text (Nat.lt_of_le_of_lt (Nat.div_le_self _ _) hfits)] at hvalue
            exact ⟨quote, hquote, hfits, (Option.some.inj hvalue).symm⟩

/-- The balance to wait for can be computed exactly if it is an amount. -/
theorem payable_iff :
    order.Payable balance quoted ↔
      ∃ payout above, Step.awaitedPayout order quoted = .ok payout ∧
        Amount.add balance payout = .ok above := by
  simp only [Payable, awaits_iff, Amount.add_ok_iff]
  constructor
  · rintro ⟨held, n, hheld, ⟨payout, hpayout, hn⟩, hfits⟩
    exact ⟨payout, _, hpayout, held, n, hheld, hn, hfits, rfl⟩
  · rintro ⟨payout, _, hpayout, held, n, hheld, hn, hfits, rfl⟩
    exact ⟨held, n, hheld, ⟨payout, hpayout, hn⟩, hfits⟩

/-- What is left to do after the approval moves nothing, and is rejected if the balance to
wait for is no amount. -/
theorem awaited_rejected {receipt : SwapReceipt}
    (h : (do
      let payout ← Outside.amount (Step.awaitedPayout order receipt.payoutAmount)
      let above ← Outside.amount (Amount.add balance payout)
      return Effect.await (.addressBalance receipt.payoutAddress order.toWalletId
        order.toTokenId (some above) none) : Calling Effect).run.Follows log result) :
    log = [] ∧ (Rejected result ↔ ¬order.Payable balance receipt.payoutAmount) := by
  rw [payable_iff]
  cases hpayout : Step.awaitedPayout order receipt.payoutAmount with
  | error e =>
      rw [hpayout] at h
      obtain ⟨rfl, rfl⟩ := follows_done.1 h
      exact ⟨rfl, iff_of_true ⟨_, rfl, rfl⟩ (by rintro ⟨_, _, heq, -⟩; cases heq)⟩
  | ok payout =>
      cases habove : Amount.add balance payout with
      | error e =>
          rw [hpayout] at h
          change (Outside.amount (Amount.add balance payout) >>= _).run.Follows log result at h
          rw [habove] at h
          obtain ⟨rfl, rfl⟩ := follows_done.1 h
          refine ⟨rfl, iff_of_true ⟨_, rfl, rfl⟩ ?_⟩
          rintro ⟨_, _, heq, hadd⟩
          cases heq
          cases habove.symm.trans hadd
      | ok above =>
          rw [hpayout] at h
          change (Outside.amount (Amount.add balance payout) >>= _).run.Follows log result at h
          rw [habove] at h
          obtain ⟨rfl, rfl⟩ := follows_done.1 h
          refine ⟨rfl, iff_of_false ?_ (not_not_intro ⟨payout, above, rfl, habove⟩)⟩
          rintro ⟨_, heq, -⟩
          cases heq

/-- A swap that has moved funds was approved, and was rejected afterwards if the balance
to wait for is no amount. -/
theorem start_paid (h : (Step.startSwap order).run.Follows log result) (hpaid : Paid log) :
    ∃ sender receiver balance receipt,
      log = [⟨.walletInfo order.fromWalletId, .ok sender⟩,
        ⟨.walletInfo order.toWalletId, .ok receiver⟩,
        ⟨.balance order.toWalletId order.toTokenId, .ok balance⟩,
        ⟨.approveSwap order.request, .ok receipt⟩] ∧
      (Rejected result ↔ ¬order.Payable balance receipt.payoutAmount) := by
  obtain ⟨_, sender, _, rfl, hsender, hfound, hpaid₁⟩ :=
    (Outside.looks_walletInfo _).paid_bind h hpaid
  obtain ⟨_, receiver, _, rfl, hreceiver, hread, hpaid₂⟩ :=
    (Outside.looks_walletInfo _).paid_bind hfound hpaid₁
  obtain ⟨_, balance, _, rfl, hbalance, happrove, hpaid₃⟩ :=
    (Outside.looks_balance _ _).paid_bind hread hpaid₂
  obtain rfl := follows_request.1 hsender
  obtain rfl := follows_request.1 hreceiver
  obtain rfl := follows_request.1 hbalance
  obtain ⟨e, -, hlog⟩ | ⟨_, receipt, _, rfl, happroved, hrest⟩ := follows_bindExcept.1 happrove
  · obtain rfl := follows_request.1 hlog
    obtain ⟨_, hentry, hmoved⟩ := hpaid₃
    obtain rfl := List.mem_singleton.1 hentry
    cases hmoved
  · obtain rfl := follows_request.1 happroved
    obtain ⟨rfl, hrejected⟩ := awaited_rejected hrest
    exact ⟨sender, receiver, balance, receipt, rfl, hrejected⟩

end Swap

/-! ## The exception -/

variable {σ : Type} {inlineCap : Nat}

/-- An inner node cannot be started, and every other kind of step looks before it pays. -/
theorem swap_of_rejected_paid {action : Action} {log : Log Outside}
    {result : Except CollaboratorError Effect}
    (h : (action.start inlineCap).run.Follows log result) (hrejected : Rejected result)
    (hpaid : Paid log) : ∃ order status, action = .step (.swap order) status := by
  have hnode (reason : String)
      (h : (throw (.invalid reason) : Calling Effect).run.Follows log result) : False := by
    obtain ⟨rfl, -⟩ := follows_throw.1 h
    obtain ⟨_, hentry, -⟩ := hpaid
    cases hentry
  cases action with
  | seq children status => exact (hnode _ h).elim
  | par children status => exact (hnode _ h).elim
  | step step status =>
      by_cases hswap : ∃ order, step = .swap order
      · obtain ⟨order, rfl⟩ := hswap
        exact ⟨order, status, rfl⟩
      · have hcareful := Step.start_careful inlineCap (not_exists.1 hswap)
        exact absurd hpaid (hcareful log result h hrejected)

/-- A step is rejected after it has moved funds exactly if it is a swap that was approved
although the balance to wait for cannot be computed. -/
theorem rejected_paid_iff_approvedInVain (world : World Outside σ) (inlineCap : Nat)
    (action : Action) (state : σ) :
    Rejected ((action.start inlineCap).run.run world state).value ∧
        Paid ((action.start inlineCap).run.log world state) ↔
      ∃ order status, action = .step (.swap order) status ∧
        order.ApprovedInVain ((action.start inlineCap).run.log world state) := by
  have h := follows_run world (action.start inlineCap).run state
  generalize ((action.start inlineCap).run.run world state).value = result at h ⊢
  generalize (action.start inlineCap).run.log world state = log at h ⊢
  constructor
  · rintro ⟨hrejected, hpaid⟩
    obtain ⟨order, status, rfl⟩ := swap_of_rejected_paid h hrejected hpaid
    obtain ⟨_, _, balance, receipt, rfl, hvain⟩ := Swap.start_paid h hpaid
    refine ⟨order, status, rfl, balance, receipt, ?_, ?_, hvain.1 hrejected⟩ <;> simp
  · rintro ⟨order, status, rfl, balance, receipt, hbalance, happroved, hvain⟩
    have hpaid : Paid log := ⟨_, happroved, rfl⟩
    obtain ⟨_, _, _, _, rfl, hrejected⟩ := Swap.start_paid h hpaid
    simp only [List.mem_cons, Answered.mk.injEq, reduceCtorEq, false_and, heq_eq_eq,
      Except.ok.injEq, true_and, List.not_mem_nil, or_self, or_false, false_or]
      at hbalance happroved
    obtain rfl := hbalance
    obtain rfl := happroved
    exact ⟨hrejected.2 hvain, hpaid⟩

/-- A swap whose expected payout is no amount, so that it can never work. -/
def misnamed : Action :=
  .step (.swap ⟨"w1", none, "w2", none, "5", .sent, some "x"⟩) none

/-- The swap is rejected for the payout it names, after it has been approved. -/
theorem misnamed_paid_then_rejected :
    Rejected ((misnamed.start 0).run.run (Queue.Host.granting 0).outside ()).value ∧
      Paid ((misnamed.start 0).run.log (Queue.Host.granting 0).outside ()) := by
  constructor
  · exact ⟨.invalid "invalid native amount 'x'", rfl, rfl⟩
  · refine ⟨⟨.approveSwap ⟨"w1", none, "w2", none, "5", .sent⟩,
      .ok ⟨"tx", "address", "1"⟩⟩, ?_, rfl⟩
    exact .tail _ (.tail _ (.tail _ (.head _)))

end ProgramQueue
