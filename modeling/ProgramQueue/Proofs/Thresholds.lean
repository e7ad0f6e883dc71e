import ProgramQueue.Proofs.Payments

/-!
# Thresholds of payouts

A step that buys or swaps waits for a balance to grow by a payout.  The threshold is computed
when the step is started and compared much later, both times through decimal texts; it is the
exact sum all the same, and a balance is compared with it as a number.
-/

namespace ProgramQueue

open ProgramQueue.Task (follows_bindExcept follows_bindOk follows_pureExcept follows_request
  follows_done follows_run)

variable {log : Log Outside} {next : Effect} {inlineCap : Nat} {walletId : String}
  {tokenId : Option String} {held payout threshold : Nat}

/-! ## Comparing with a threshold -/

/-- A text that was written for an amount is compared as that amount. -/
theorem Amount.compare_text (h : threshold < bound) (balance : String) :
    Amount.compare balance (text threshold) =
      match value? balance with
      | some n => .ok (Ord.compare n threshold)
      | none => .error (.malformed balance) := by
  unfold Amount.compare parse
  rw [value?_text h]
  cases value? balance with
  | some n => rfl
  | none => rfl

/-- A threshold alone is reached by every amount that is no smaller. -/
theorem Condition.balanceReaches_text (h : threshold < Amount.bound) (balance : String) :
    balanceReaches balance (some (Amount.text threshold)) none =
      match Amount.value? balance with
      | some n => .ok (decide (threshold ≤ n))
      | none => .error (.malformed balance) := by
  have hpasses : balancePasses balance .lt (some (Amount.text threshold)) =
      (Amount.compare balance (Amount.text threshold)).map (· != .lt) := rfl
  unfold balanceReaches
  rw [hpasses, Amount.compare_text h]
  cases Amount.value? balance with
  | none => rfl
  | some n =>
      have hreached : (Ord.compare n threshold != .lt) = decide (threshold ≤ n) := by
        rw [Bool.eq_iff_iff, bne_iff_ne, decide_eq_true_eq, Ne, Nat.compare_eq_lt, Nat.not_lt]
      change Except.ok ((Ord.compare n threshold != .lt) || false) =
        .ok (decide (threshold ≤ n))
      rw [Bool.or_false, hreached]

namespace Effect

/-- The effect waits until the balance of a token in a wallet has reached a threshold: a balance
that is an amount is compared as a number, and any other text is wrong. -/
structure AwaitsBalance (effect : Effect) (walletId : String) (tokenId : Option String)
    (threshold : Nat) : Prop where
  awaits : ∃ address above,
    effect = .await (.addressBalance address walletId tokenId (some above) none)
  checks : ∀ log result, effect.check.run.Follows log result →
    ∃ answer, log = [⟨.balance walletId tokenId, answer⟩] ∧ ∀ balance, answer = .ok balance →
      (result = .ok .satisfied ↔ ∃ n, Amount.value? balance = some n ∧ threshold ≤ n) ∧
      (result = .ok .pending ↔ ∃ n, Amount.value? balance = some n ∧ n < threshold) ∧
      (Rejected result ↔ Amount.value? balance = none)

/-- What a check finds once the balance has been read. -/
theorem found_of_balance (h : threshold < Amount.bound) (balance : String)
    {result : Except CollaboratorError Check}
    (hresult : (do
      let reached ← Outside.amount
        (Condition.balanceReaches balance (some (Amount.text threshold)) none)
      return Check.ofBool reached : Calling Check).run.Follows log result) :
    log = [] ∧
      (result = .ok .satisfied ↔ ∃ n, Amount.value? balance = some n ∧ threshold ≤ n) ∧
      (result = .ok .pending ↔ ∃ n, Amount.value? balance = some n ∧ n < threshold) ∧
      (Rejected result ↔ Amount.value? balance = none) := by
  have hreaches := Condition.balanceReaches_text h balance
  cases hvalue : Amount.value? balance with
  | none =>
      rw [hvalue] at hreaches
      rw [hreaches] at hresult
      obtain ⟨rfl, rfl⟩ := follows_done.1 hresult
      refine ⟨rfl, iff_of_false nofun ?_, iff_of_false nofun ?_, iff_of_true ⟨_, rfl, rfl⟩ rfl⟩
      · rintro ⟨n, ⟨⟩, -⟩
      · rintro ⟨n, ⟨⟩, -⟩
  | some n =>
      rw [hvalue] at hreaches
      rw [hreaches] at hresult
      obtain ⟨rfl, rfl⟩ := follows_done.1 hresult
      have hunrejected : ¬Rejected (.ok (Check.ofBool (decide (threshold ≤ n)))) := by
        rintro ⟨e, ⟨⟩, -⟩
      obtain hless | hreached := Nat.lt_or_ge n threshold
      · have hfound : Check.ofBool (decide (threshold ≤ n)) = .pending :=
          if_neg (by simpa using hless)
        refine ⟨rfl, ?_, ?_, iff_of_false hunrejected nofun⟩
        · simpa [hfound] using hless
        · simpa [hfound] using hless
      · have hfound : Check.ofBool (decide (threshold ≤ n)) = .satisfied :=
          if_pos (decide_eq_true hreached)
        refine ⟨rfl, ?_, ?_, iff_of_false hunrejected nofun⟩
        · simpa [hfound] using hreached
        · simpa [hfound] using hreached

theorem awaitsBalance_text (h : threshold < Amount.bound) (address : String) :
    (Effect.await (.addressBalance address walletId tokenId (some (Amount.text threshold))
      none)).AwaitsBalance walletId tokenId threshold where
  awaits := ⟨address, _, rfl⟩
  checks log result hcheck := by
    obtain ⟨e, rfl, hread⟩ | ⟨first, balance, later, rfl, hread, hfound⟩ :=
      follows_bindExcept.1 hcheck
    · obtain rfl := follows_request.1 hread
      exact ⟨.error e, rfl, nofun⟩
    · obtain rfl := follows_request.1 hread
      obtain ⟨rfl, hcompared⟩ := found_of_balance h balance hfound
      refine ⟨.ok balance, rfl, ?_⟩
      rintro _ ⟨⟩
      exact hcompared

end Effect

/-! ## The payout of a swap -/

theorem Outside.follows_amountOk {α : Type} {result : Except Amount.Error α} {value : α} :
    (Outside.amount result).run.Follows log (.ok value) ↔ log = [] ∧ result = .ok value := by
  refine follows_done.trans (and_congr_right fun _ => ?_)
  cases result with
  | error e => exact iff_of_false nofun nofun
  | ok found => simp [Except.mapError, eq_comm]

namespace Swap

variable {order : Swap} {quoted : String}

/-- The payout is taken from the quote, less a tenth. -/
def TakesShare (order : Swap) : Prop := order.expectedPayout = none ∧ order.amountFor = .sent

/-- The payout that a swap is to bring in: the one that was named, else the quoted one, or nine
tenths of it if it is the sent amount that is fixed. -/
def Promises (order : Swap) (quoted : String) (payout : Nat) : Prop :=
  match order.expectedPayout, order.amountFor with
  | some expected, _ => Amount.value? expected = some payout
  | none, .sent => ∃ quote, Amount.value? quoted = some quote ∧ payout = 90 * quote / 100
  | none, .received => Amount.value? quoted = some payout

/-- A share that is taken from the quote can be computed. -/
def ShareFits (order : Swap) (quoted : String) : Prop :=
  order.TakesShare → ∀ quote, Amount.value? quoted = some quote → 90 * quote < Amount.bound

/-- What is waited for is the promised payout, unless its share cannot be computed. -/
theorem awaits_iff_promises :
    order.Awaits quoted payout ↔ order.Promises quoted payout ∧ order.ShareFits quoted := by
  unfold Awaits Promises ShareFits TakesShare Step.payoutPercent
  cases order.expectedPayout with
  | some expected => simp
  | none =>
      cases order.amountFor with
      | received => simp
      | sent =>
          constructor
          · rintro ⟨quote, hquote, hfits, rfl⟩
            rw [Nat.mul_comm] at hfits ⊢
            refine ⟨⟨quote, hquote, rfl⟩, fun _ other hother => ?_⟩
            rwa [← Option.some.inj (hquote.symm.trans hother)]
          · rintro ⟨⟨quote, hquote, rfl⟩, hfits⟩
            rw [Nat.mul_comm]
            have hproduct := hfits ⟨rfl, rfl⟩ quote hquote
            exact ⟨quote, hquote, by rwa [Nat.mul_comm], rfl⟩

end Swap

/-! ## What a step waits for -/

namespace Step

/-- Where the payout of a step is to arrive. -/
def payoutPlace? : Step → Option (String × Option String)
  | exchangeBuy order => some (order.walletId, order.tokenId)
  | swap order => some (order.toWalletId, order.toTokenId)
  | _ => none

/-- What the requests of a step tell of its payout: how much was held where it is to arrive, and
how much it is. -/
inductive Foresees (log : Log Outside) : Step → Nat → Nat → Prop
  | buy {order : Exchange} {balance : String} {held payout : Nat}
      (read : ⟨.balance order.walletId order.tokenId, .ok balance⟩ ∈ log)
      (amount : Amount.value? balance = some held)
      (ordered : Amount.value? order.nativeAmount = some payout) :
      Foresees log (.exchangeBuy order) held payout
  | swap {order : Swap} {balance : String} {receipt : SwapReceipt} {held payout : Nat}
      (read : ⟨.balance order.toWalletId order.toTokenId, .ok balance⟩ ∈ log)
      (amount : Amount.value? balance = some held)
      (approved : ⟨.approveSwap order.request, .ok receipt⟩ ∈ log)
      (promised : order.Promises receipt.payoutAmount payout) :
      Foresees log (.swap order) held payout

/-- A share of a quote that the requests tell of can be computed. -/
def SharesFit (log : Log Outside) (step : Step) : Prop :=
  ∀ order receipt, step = .swap order → ⟨.approveSwap order.request, .ok receipt⟩ ∈ log →
    order.ShareFits receipt.payoutAmount

/-- The effect waits for exactly what was held and the payout together. -/
def AwaitsPayout (log : Log Outside) (step : Step) (walletId : String) (tokenId : Option String)
    (next : Effect) : Prop :=
  (∃ held payout, step.Foresees log held payout) ∧ step.SharesFit log ∧
    ∀ held payout, step.Foresees log held payout →
      held + payout < Amount.bound ∧ next.AwaitsBalance walletId tokenId (held + payout)

/-- A sum that could be computed is waited for as a number. -/
theorem awaitsBalance_sum {balance amount above : String} (address : String)
    (hheld : Amount.value? balance = some held) (hpayout : Amount.value? amount = some payout)
    (hadd : Amount.add balance amount = .ok above) :
    held + payout < Amount.bound ∧
      (Effect.await (.addressBalance address walletId tokenId (some above) none)).AwaitsBalance
        walletId tokenId (held + payout) := by
  obtain ⟨m, n, hm, hn, hfits, rfl⟩ := Amount.add_ok_iff.1 hadd
  obtain rfl := Option.some.inj (hheld.symm.trans hm)
  obtain rfl := Option.some.inj (hpayout.symm.trans hn)
  exact ⟨hfits, Effect.awaitsBalance_text hfits address⟩

theorem startBuy_awaits {order : Exchange} (h : (startBuy order).run.Follows log (.ok next)) :
    (exchangeBuy order).AwaitsPayout log order.walletId order.tokenId next := by
  obtain ⟨_, balance, _, rfl, hbalance, h⟩ := follows_bindOk.1 h
  obtain ⟨_, address, _, rfl, haddress, h⟩ := follows_bindOk.1 h
  obtain ⟨_, above, _, rfl, habove, h⟩ := follows_bindOk.1 h
  obtain ⟨_, placed, _, rfl, hplaced, h⟩ := follows_bindOk.1 h
  obtain ⟨rfl, heq⟩ := follows_pureExcept.1 h
  cases heq
  obtain rfl := follows_request.1 hbalance
  obtain rfl := follows_request.1 haddress
  obtain rfl := follows_request.1 hplaced
  obtain ⟨rfl, hadd⟩ := Outside.follows_amountOk.1 habove
  obtain ⟨held, payout, hheld, hpayout, -, -⟩ := Amount.add_ok_iff.1 hadd
  refine ⟨⟨held, payout, .buy List.mem_cons_self hheld hpayout⟩, nofun, ?_⟩
  rintro _ _ ⟨hread, hamount, hordered⟩
  simp only [List.nil_append, List.append_nil, List.cons_append, List.mem_cons,
    Answered.mk.injEq, reduceCtorEq, false_and, heq_eq_eq, Except.ok.injEq, true_and,
    List.not_mem_nil, or_self, or_false] at hread
  obtain rfl := hread
  exact awaitsBalance_sum address hamount hordered hadd

/-- The requests of a swap that was started: both wallets are there, the balance is read, and
the swap is approved. -/
def swapLog (order : Swap) (sender receiver : WalletInfo) (balance : String)
    (receipt : SwapReceipt) : Log Outside :=
  [⟨.walletInfo order.fromWalletId, .ok sender⟩, ⟨.walletInfo order.toWalletId, .ok receiver⟩,
    ⟨.balance order.toWalletId order.toTokenId, .ok balance⟩,
    ⟨.approveSwap order.request, .ok receipt⟩]

section

variable {order : Swap} {sender receiver : WalletInfo} {balance other : String}
  {receipt found : SwapReceipt}

theorem balance_mem_swapLog :
    ⟨.balance order.toWalletId order.toTokenId, .ok other⟩ ∈
      swapLog order sender receiver balance receipt ↔ other = balance := by
  simp [swapLog]

theorem receipt_mem_swapLog :
    ⟨.approveSwap order.request, .ok found⟩ ∈ swapLog order sender receiver balance receipt ↔
      found = receipt := by
  simp [swapLog]

end

theorem startSwap_awaits {order : Swap} (h : (startSwap order).run.Follows log (.ok next)) :
    (swap order).AwaitsPayout log order.toWalletId order.toTokenId next := by
  obtain ⟨_, sender, _, rfl, hsender, h⟩ := follows_bindOk.1 h
  obtain ⟨_, receiver, _, rfl, hreceiver, h⟩ := follows_bindOk.1 h
  obtain ⟨_, balance, _, rfl, hbalance, h⟩ := follows_bindOk.1 h
  obtain ⟨_, receipt, _, rfl, hreceipt, h⟩ := follows_bindOk.1 h
  obtain ⟨_, amount, _, rfl, hawaited, h⟩ := follows_bindOk.1 h
  obtain ⟨_, above, _, rfl, habove, h⟩ := follows_bindOk.1 h
  obtain ⟨rfl, heq⟩ := follows_pureExcept.1 h
  cases heq
  obtain rfl := follows_request.1 hsender
  obtain rfl := follows_request.1 hreceiver
  obtain rfl := follows_request.1 hbalance
  obtain rfl := follows_request.1 hreceipt
  obtain ⟨rfl, hamount⟩ := Outside.follows_amountOk.1 hawaited
  obtain ⟨rfl, hadd⟩ := Outside.follows_amountOk.1 habove
  obtain ⟨held, payout, hheld, hpayout, -, -⟩ := Amount.add_ok_iff.1 hadd
  obtain ⟨hpromised, hfits⟩ :=
    Swap.awaits_iff_promises.1 (Swap.awaits_iff.2 ⟨amount, hamount, hpayout⟩)
  change (swap order).AwaitsPayout (swapLog order sender receiver balance receipt) _ _ _
  refine ⟨⟨held, payout, ?_⟩, ?_, ?_⟩
  · exact .swap (balance_mem_swapLog.2 rfl) hheld (receipt_mem_swapLog.2 rfl) hpromised
  · rintro _ other ⟨⟩ happroved
    rwa [receipt_mem_swapLog.1 happroved]
  · rintro _ _ (_ | ⟨hread, hamounts, happroved, hexpected⟩)
    obtain rfl := receipt_mem_swapLog.1 happroved
    obtain rfl := balance_mem_swapLog.1 hread
    obtain ⟨_, heq, hvalue⟩ := Swap.awaits_iff.1 (Swap.awaits_iff_promises.2 ⟨hexpected, hfits⟩)
    cases hamount.symm.trans heq
    exact awaitsBalance_sum _ hamounts hvalue hadd

/-- Whatever a step that brings in a payout finds when it is started, it waits until the balance
has grown by exactly that payout; and a sum or a share that is too large keeps it from being
started. -/
theorem payout_threshold_exact {σ : Type} (world : World Outside σ) (inlineCap : Nat) {step : Step}
    (state : σ) (hplace : step.payoutPlace? = some (walletId, tokenId))
    (hstart : ((step.start inlineCap).run.run world state).value = .ok next) :
    step.AwaitsPayout ((step.start inlineCap).run.log world state) walletId tokenId next := by
  have h := follows_run world (step.start inlineCap).run state
  rw [hstart] at h
  cases step with
  | exchangeBuy order =>
      cases hplace
      exact startBuy_awaits h
  | swap order =>
      cases hplace
      exact startSwap_awaits h
  | _ => cases hplace

end Step

/-! ## A payout of nine tenths -/

/-- A wallet holds seven units, written as it likes, and 1005 are quoted. -/
def quoting : World Outside Unit where
  respond
    | .balance _ _, _ => (.ok " +07", ())
    | .approveSwap _, _ => (.ok ⟨"tx", "address", "1005"⟩, ())
    | request, state => (Queue.Host.granting 0).outside.respond request state

/-- What is fixed is the amount that is sent, and no payout is named. -/
def bridge : Swap := ⟨"w1", none, "w2", none, "5", .sent, none⟩

/-- The balance that the swap waits for. -/
def bridged : Effect := .await (.addressBalance "address" "w2" none (some "911") none)

/-- The swap waits for the seven units and nine tenths of the quote, which are rounded down. -/
theorem bridge_awaits_share :
    let start := ((Step.swap bridge).start 0).run
    (Step.swap bridge).payoutPlace? = some ("w2", none) ∧
      (start.run quoting ()).value = .ok bridged ∧
        (Step.swap bridge).Foresees (start.log quoting ()) 7 904 ∧
          bridged.AwaitsBalance "w2" none 911 := by
  have hstart : (((Step.swap bridge).start 0).run.run quoting ()).value = .ok bridged := by
    decide +kernel
  have hread : ⟨.balance "w2" none, .ok " +07"⟩ ∈
      ((Step.swap bridge).start 0).run.log quoting () := .tail _ (.tail _ (.head _))
  have happroved : ⟨.approveSwap bridge.request, .ok ⟨"tx", "address", "1005"⟩⟩ ∈
      ((Step.swap bridge).start 0).run.log quoting () := .tail _ (.tail _ (.tail _ (.head _)))
  have hforesees : (Step.swap bridge).Foresees (((Step.swap bridge).start 0).run.log quoting ())
      7 904 := .swap hread (by decide +kernel) happroved ⟨1005, by decide +kernel, rfl⟩
  have hawaits := Step.payout_threshold_exact quoting 0 () rfl hstart
  exact ⟨rfl, hstart, hforesees, (hawaits.2.2 7 904 hforesees).2⟩

end ProgramQueue
