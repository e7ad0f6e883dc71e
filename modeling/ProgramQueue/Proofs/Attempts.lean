import Mathlib.Order.Bounds.Basic
import Mathlib.Order.Lattice.Nat
import ProgramQueue.Push.Client

/-!
# How often a message is attempted

A message is attempted until an attempt is final, because it got through or because the
request itself is wrong, and at most as often as the policy allows.  The network may answer
the attempts in any way.  Between two attempts the client waits as long as the policy says
for the first of them; after the last one it does not wait.
-/

namespace ProgramQueue.Push

/-- Another attempt gains nothing: this one got through, or the request itself is wrong. -/
def isFinal : Except TransportFailure Response → Bool
  | .error failure => !failure.isRetryable
  | .ok response => response.isSuccess || !(500 ≤ response.code || response.code = 429)

/-- A network with an answer to each attempt, by its number.  The state is the number of the
last attempt. -/
def answering (answers : Nat → Except TransportFailure Response) : World Network Nat where
  respond
    | .attempt _, made => (answers (made + 1), made + 1)
    | .pause _, made => ((), made)

/-- An attempt of a message and some more, each after the wait that follows the one before it;
the first has a number. -/
def exchange (policy : RetryPolicy) (message : Message) (first more : Nat) :
    List NetworkRequest :=
  .attempt message :: (List.range' first more).flatMap fun attempt =>
    [.pause (policy.delayAfter attempt), .attempt message]

/-- The numbers at which attempts may end after some were made: the limit, and those of final
answers. -/
def endings (answers : Nat → Except TransportFailure Response) (made limit : Nat) : Set Nat :=
  {limit} ∪ {attempt | made < attempt ∧ isFinal (answers attempt)}

variable {answers : Nat → Except TransportFailure Response} {made limit last : Nat}

/-! ## The last attempt -/

theorem endings_least (answers : Nat → Except TransportFailure Response) (made limit : Nat) :
    ∃ last, IsLeast (endings answers made limit) last :=
  ⟨_, Nat.sInf_mem ⟨limit, .inl rfl⟩, fun _ => Nat.sInf_le⟩

theorem last_of_limit (h : IsLeast (endings answers made (made + 1)) last) :
    last = made + 1 := by
  have hle : last ≤ made + 1 := h.2 (.inl rfl)
  rcases h.1 with hlimit | ⟨hlater, -⟩
  · exact hlimit
  · omega

theorem last_of_final (h : IsLeast (endings answers made limit) last) (hlimit : made < limit)
    (hfinal : isFinal (answers (made + 1)) = true) : last = made + 1 := by
  have hle : last ≤ made + 1 := h.2 (.inr ⟨Nat.lt_succ_self made, hfinal⟩)
  rcases h.1 with rfl | ⟨hlater, -⟩ <;> omega

theorem last_of_not_final (h : IsLeast (endings answers made limit) last)
    (hlimit : made + 1 < limit) (hgoes : isFinal (answers (made + 1)) = false) :
    IsLeast (endings answers (made + 1) limit) last ∧ made + 1 < last := by
  have hlater : last = limit ∨ made + 1 < last ∧ isFinal (answers last) = true := by
    rcases h.1 with rfl | ⟨hlater, hfinal⟩
    · exact .inl rfl
    · refine .inr ⟨Nat.lt_of_le_of_ne hlater fun heq => ?_, hfinal⟩
      rw [← heq, hgoes] at hfinal
      cases hfinal
  refine ⟨⟨hlater, fun attempt hattempt => h.2 ?_⟩, ?_⟩
  · exact hattempt.imp_right fun ⟨hmore, hfinal⟩ => ⟨Nat.lt_of_succ_lt hmore, hfinal⟩
  · rcases hlater with rfl | ⟨hmore, -⟩
    · exact hlimit
    · exact hmore

namespace Client

variable {answer : Except TransportFailure Response}

/-! ## One attempt -/

/-- A final attempt got through, or its error is not worth another one. -/
theorem outcome_of_final (path : String) (h : isFinal answer = true) :
    (∃ body, outcome path answer = .ok body) ∨
      ∃ e, outcome path answer = .error e ∧ e.isRetryable = false := by
  cases answer with
  | error failure =>
      exact .inr ⟨.http failure, rfl, by simpa [isFinal, RequestError.isRetryable] using h⟩
  | ok response =>
      cases hsuccess : response.isSuccess with
      | true => exact .inl ⟨response.body, by rw [outcome, if_pos hsuccess]⟩
      | false =>
          refine .inr ⟨.status path response.code response.body, ?_, ?_⟩
          · rw [outcome, if_neg (by simp [hsuccess])]
          · simpa [isFinal, hsuccess, RequestError.isRetryable] using h

/-- An attempt that is not final has an error that is worth another one. -/
theorem outcome_of_not_final (path : String) (h : isFinal answer = false) :
    ∃ e, outcome path answer = .error e ∧ e.isRetryable = true := by
  cases answer with
  | error failure =>
      exact ⟨.http failure, rfl, by simpa [isFinal, RequestError.isRetryable] using h⟩
  | ok response =>
      obtain ⟨hsuccess, hagain⟩ := Bool.or_eq_false_iff.1 h
      rw [Bool.not_eq_false'] at hagain
      exact ⟨.status path response.code response.body,
        by rw [outcome, if_neg (by simp [hsuccess])], hagain⟩

/-! ## All attempts -/

variable {path : String} {policy : RetryPolicy} {message : Message}

/-- After an attempt that is final nothing more is asked. -/
theorem attemptFrom_final (attempt more : Nat) (h : isFinal (answers (made + 1)) = true) :
    (attemptFrom policy path message attempt more).run (answering answers) made =
      ⟨outcome path (answers (made + 1)), made + 1, exchange policy message attempt 0⟩ := by
  cases more with
  | zero => rfl
  | succ more =>
      simp only [attemptFrom, Task.request, bind, Task.bind, Task.run, answering]
      rcases outcome_of_final path h with ⟨body, hbody⟩ | ⟨e, herror, hwrong⟩
      · rw [hbody]
        rfl
      · simp only [herror, hwrong, Bool.false_eq_true, ↓reduceIte]
        rfl

/-- After an attempt that is not final the client waits and makes those that are left. -/
theorem attemptFrom_again (attempt more : Nat) (h : isFinal (answers (made + 1)) = false) :
    (attemptFrom policy path message attempt (more + 1)).run (answering answers) made =
      let later := (attemptFrom policy path message (attempt + 1) more).run (answering answers)
        (made + 1)
      { later with
        requests := .attempt message :: .pause (policy.delayAfter attempt) :: later.requests } := by
  obtain ⟨e, herror, hagain⟩ := outcome_of_not_final path h
  simp only [attemptFrom, Task.request, bind, Task.bind, Task.run, answering, herror, hagain,
    ↓reduceIte]

theorem attemptFrom_run (path : String) (policy : RetryPolicy) (message : Message) {more : Nat}
    (h : IsLeast (endings answers made (made + 1 + more)) last) :
    (attemptFrom policy path message (made + 1) more).run (answering answers) made =
      ⟨outcome path (answers last), last,
        exchange policy message (made + 1) (last - (made + 1))⟩ := by
  induction more generalizing made with
  | zero =>
      obtain rfl := last_of_limit h
      rw [Nat.sub_self]
      rfl
  | succ more ih =>
      cases hfinal : isFinal (answers (made + 1)) with
      | true =>
          obtain rfl := last_of_final h (by omega) hfinal
          rw [attemptFrom_final _ _ hfinal, Nat.sub_self]
      | false =>
          obtain ⟨hlater, hlt⟩ := last_of_not_final h (by omega) hfinal
          have hrest := ih (Nat.add_right_comm _ 1 more ▸ hlater)
          have hcount : last - (made + 1) = last - (made + 1 + 1) + 1 := by omega
          rw [attemptFrom_again _ _ hfinal, hrest, hcount]
          rfl

/-- A message is attempted as often as the policy allows, and at least once, or up to the
first attempt that is final if that comes earlier.  All attempts are of the same message, the
waits between them are those of the policy, and the result is that of the last attempt. -/
theorem post_ends_with_last_attempt (client : Client) (path : String) (body : Json)
    (answers : Nat → Except TransportFailure Response) :
    ∃ last, IsLeast ({max 1 client.config.retry.maxAttempts} ∪
        {attempt | 1 ≤ attempt ∧ isFinal (answers attempt)}) last ∧
      (client.post path body).run (answering answers) 0 =
        ⟨outcome path (answers last), last,
          exchange client.config.retry (client.message path body) 1 (last - 1)⟩ := by
  obtain ⟨last, hlast⟩ := endings_least answers 0 (max 1 client.config.retry.maxAttempts)
  refine ⟨last, hlast, ?_⟩
  have hlimit : max 1 client.config.retry.maxAttempts =
      0 + 1 + (client.config.retry.maxAttempts - 1) := by omega
  rw [hlimit] at hlast
  exact attemptFrom_run path client.config.retry (client.message path body) hlast

end Client

end ProgramQueue.Push
