import ProgramQueue.Proofs.Frames

/-!
# Histories

A history is a list of operations, each carried out to its end by a queue with settings
of its own, in a world outside of its own.  So the answers of the collaborators, of the
push server and of the clocks may be different each time anything is asked.
-/

namespace ProgramQueue.Queue

/-- What a queue can be told to do. -/
inductive Command where
  | schedule (program : Program)
  | run (id : String)
  | triggerFired (event : String)
  | poll
  | resumeDue
  | cancel (id : String)
  | registerDevice (identity : DeviceIdentity)
  | remove (id : String)
  | prune
  | recover

namespace Command

/-- The operation for a command, whatever it answers. -/
def operation (settings : Settings) : Command → Operation Unit
  | schedule program => do let _ ← Queue.schedule settings program
  | run id => do let _ ← Queue.run settings id
  | triggerFired event => do let _ ← onTriggerFired settings event
  | poll => do let _ ← pollPushEvents settings
  | resumeDue => do let _ ← Queue.resumeDue settings
  | cancel id => do let _ ← Queue.cancel settings id
  | registerDevice identity => do let _ ← Queue.registerDevice settings identity
  | remove id => do let _ ← Queue.remove id
  | prune => do let _ ← Queue.prune
  | recover => do let _ ← Queue.recover settings

/-- The command sends the identity of the device. -/
def registers : Command → Bool
  | registerDevice _ => true
  | _ => false

theorem made_operation {terms : Terms} {settings : Settings} {command : Command}
    (hsettings : terms.settings settings)
    (hrecording : command.registers = true → terms.recording) :
    MadeOfMoves terms (command.operation settings) := by
  cases command with
  | schedule program => exact made_bind (made_schedule hsettings program) fun _ => made_pure _
  | run id => exact made_bind (made_run hsettings id) fun _ => made_pure _
  | triggerFired event =>
      exact made_bind (made_onTriggerFired hsettings event) fun _ => made_pure _
  | poll => exact made_bind (made_pollPushEvents hsettings) fun _ => made_pure _
  | resumeDue => exact made_bind (made_resumeDue hsettings) fun _ => made_pure _
  | cancel id => exact made_bind (made_terminate settings id _) fun _ => made_pure _
  | registerDevice identity =>
      exact made_bind (made_registerDevice (hrecording rfl) settings identity) fun _ =>
        made_pure _
  | remove id => exact made_bind (made_remove id) fun _ => made_pure _
  | prune => exact made_bind made_prune fun _ => made_pure _
  | recover => exact made_bind (made_recover settings) fun _ => made_pure _

end Command

/-- One operation of a history: who carries it out, and in what world. -/
structure Turn where
  {σ : Type}
  host : Host σ
  outer : σ
  settings : Settings
  command : Command

namespace Turn

def log (turn : Turn) (store : Store) : Log Surroundings :=
  (turn.command.operation turn.settings).log turn.host.world ⟨store, turn.outer⟩

/-- The store once the operation is over. -/
def after (turn : Turn) (store : Store) : Store :=
  ((turn.command.operation turn.settings).run turn.host.world ⟨store, turn.outer⟩).state.store

end Turn

/-! ## A world in which all goes well -/

/-- Every collaborator does what it is asked, and no transaction is seen yet. -/
def grant (now : Int64) : (query : Query) → query.Answer
  | .walletInfo walletId => .ok ⟨walletId, "bitcoin"⟩
  | .balance _ _ => .ok "0"
  | .receiveAddress _ _ => .ok "address"
  | .confirmations _ _ => .ok .unknown
  | .send _ _ _ _ => .ok "tx"
  | .broadcast _ _ => .ok "tx"
  | .approveLoan _ => .ok []
  | .approveSwap _ => .ok ⟨"tx", "address", "1"⟩
  | .depositAddress _ => .ok "address"
  | .placeBuy _ _ => .ok ()
  | .rate _ => .error (.unavailable "no rate")
  | .toast _ => .ok ()
  | .clock => now
  | .pause _ => ()

/-- The push server accepts everything and reports nothing; time stands still. -/
def Host.granting (now : Int64) : Host Unit where
  outside := ⟨fun query _ => (grant now query, ())⟩
  push
    | .updateDevice _, _ => (.ok ⟨[], [], false, false⟩, ())
    | .updateLogin _, _ => (.ok (), ())
    | .loginEvents, _ => (.ok ⟨[]⟩, ())
  wallClock _ := (now.toInt, ())

/-- A command that is carried out while all goes well. -/
def Turn.granted (now : Int64) (maxSteps : Nat) (command : Command) : Turn where
  host := Host.granting now
  outer := ()
  settings := ⟨"queue", maxSteps, 300, none, 0⟩
  command := command

/-- Shows two messages, one after the other. -/
def messages : Program :=
  ⟨"messages", .seq [.step (.toast "first") none, .step (.toast "second") none] none, none⟩

/-! ## Runs of a history -/

def logOf : List Turn → Store → Log Surroundings
  | [], _ => []
  | turn :: rest, store => turn.log store ++ logOf rest (turn.after store)

def storeAfter : List Turn → Store → Store
  | [], store => store
  | turn :: rest, store => storeAfter rest (turn.after store)

theorem logOf_append (past later : List Turn) (store : Store) :
    logOf (past ++ later) store = logOf past store ++ logOf later (storeAfter past store) := by
  induction past generalizing store with
  | nil => rfl
  | cons turn rest ih => simp only [List.cons_append, logOf, storeAfter, ih, List.append_assoc]

/-- Whatever is asked in a history is asked in one of its turns. -/
theorem mem_logOf {turns : List Turn} {store : Store} {entry : Answered Surroundings}
    (h : entry ∈ logOf turns store) :
    ∃ turn ∈ turns, ∃ begun, entry ∈ turn.log begun := by
  induction turns generalizing store with
  | nil => cases h
  | cons turn rest ih =>
      obtain hfirst | hlater := List.mem_append.1 h
      · exact ⟨turn, List.mem_cons_self, store, hfirst⟩
      · obtain ⟨other, hother, hentry⟩ := ih hlater
        exact ⟨other, List.mem_cons_of_mem _ hother, hentry⟩

/-- A turn that is within the terms of a history. -/
structure Turn.Keeps (terms : Terms) (turn : Turn) : Prop where
  settings : terms.settings turn.settings
  recording : turn.command.registers = true → terms.recording

theorem Turn.keeps_free (turn : Turn) : turn.Keeps .free :=
  ⟨trivial, fun _ => trivial⟩

theorem Turn.moves {terms : Terms} {turn : Turn} (h : turn.Keeps terms) {store : Store}
    (hfiled : store.Filed) : Moves terms store (turn.log store) (turn.after store) :=
  Command.made_operation h.settings h.recording _ _ _ _ hfiled
    (completes_run turn.host (turn.command.operation turn.settings) ⟨store, turn.outer⟩)

theorem moves_history {terms : Terms} {turns : List Turn} (h : ∀ turn ∈ turns, turn.Keeps terms)
    {store : Store} (hfiled : store.Filed) :
    Moves terms store (logOf turns store) (storeAfter turns store) := by
  induction turns generalizing store with
  | nil => exact .nil _
  | cons turn rest ih =>
      have hfirst := turn.moves (h turn List.mem_cons_self) hfiled
      exact hfirst.append (ih (fun other hother => h other (List.mem_cons_of_mem _ hother))
        (hfirst.filed hfiled))

theorem moves_free (turns : List Turn) {store : Store} (hfiled : store.Filed) :
    Moves .free store (logOf turns store) (storeAfter turns store) :=
  moves_history (fun turn _ => turn.keeps_free) hfiled

/-- Whatever happens, every record stands under the id of its program. -/
theorem filed_storeAfter (turns : List Turn) : (storeAfter turns .empty).Filed :=
  (moves_free turns .empty).filed .empty

/-- No record gets a rate, so every record comes back from its text as it was written. -/
theorem intact_storeAfter (turns : List Turn) (id : String) :
    (storeAfter turns .empty).Intact id :=
  (moves_free turns .empty).intact .empty (.empty id)

end ProgramQueue.Queue
