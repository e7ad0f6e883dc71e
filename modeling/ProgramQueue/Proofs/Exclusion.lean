import ProgramQueue.Proofs.Processes

/-!
# One task at a time

As long as every task drops its claim before the claim counts as abandoned, no two tasks
have claimed one program at the same time.  Tasks of one process are kept apart by its
locks, because a claim that a process has it may renew; tasks of different processes are
kept apart by the claims.
-/

namespace ProgramQueue.Queue

open ProgramQueue.Task (Obeys)

/-! ## What holds in any order of steps -/

/-- A task has a ticket while it asks for a lock and while it has one, and then only. -/
inductive Footing : Situation → Prop
  | apart {left : Operation Unit} {stage : Conduct} (hlocked : stage.locked? = none) :
      Footing ⟨left, stage, none⟩
  | waiting (ticket : LockTicket) {stage : Conduct} {next : Unit → Operation Unit}
      (hlocked : stage.locked? = none) (hstage : ticket.stage ≠ .holding) :
      Footing ⟨.ask (.lock ticket.id) next, stage, some ticket⟩
  | holding {left : Operation Unit} {stage : Conduct} {ticket : LockTicket}
      (hlocked : stage.locked? = some ticket.id) (hstage : ticket.stage = .holding) :
      Footing ⟨left, stage, some ticket⟩

/-- What holds of a task of a queue with these settings. -/
structure Placed (settings : Settings) (owner : String) (store : Store) (now : Int)
    (situation : Situation) : Prop where
  obeys : situation.left.Obeys (conduct settings) (fun _ stage => ∃ reading, stage = .free reading)
    situation.stage
  footing : Footing situation
  past : ∀ reading, situation.stage.reading? = some reading → reading ≤ now
  claimed : ∀ id since, situation.stage = .inside id since →
    store.claims.find? id = some ⟨owner, since⟩

/-- What holds of processes with these settings. -/
structure Orderly (settings : String → Settings) (system : System) : Prop where
  sound : ∀ owner, (system.locks owner).Sound
  placed : ∀ worker, Placed (settings worker.owner) worker.owner system.store system.now
    (system.situation worker)

variable {settings : String → Settings} {system later : System} {worker other : Worker}
  {id : String} {ttl : Nat}

theorem Footing.ticket {situation : Situation} (h : Footing situation)
    (hlocked : situation.stage.locked? = some id) :
    ∃ ticket, situation.ticket? = some ticket ∧ ticket.id = id ∧ ticket.stage = .holding := by
  cases h with
  | apart hnone => cases hnone.symm.trans hlocked
  | waiting _ hnone => cases hnone.symm.trans hlocked
  | holding hsome hstage => exact ⟨_, rfl, Option.some.inj (hsome.symm.trans hlocked), hstage⟩

theorem Orderly.past (h : Orderly settings system) {reading : Int}
    (hread : (system.stage worker).reading? = some reading) : reading ≤ system.now :=
  (h.placed worker).past reading hread

theorem Orderly.claimed (h : Orderly settings system) {since : Int}
    (hinside : system.stage worker = .inside id since) :
    system.store.claims.find? id = some ⟨worker.owner, since⟩ :=
  (h.placed worker).claimed id since hinside

/-- A task that does not ask for a lock may go on in any way that keeps its lock. -/
theorem Footing.goesOn {left rest : Operation Unit} {stage next : Conduct}
    {found : Option LockTicket} (h : Footing ⟨left, stage, found⟩)
    (hlock : ∀ id next, left ≠ .ask (.lock id) next) (hlocked : next.locked? = stage.locked?) :
    Footing ⟨rest, next, found⟩ := by
  cases h with
  | apart hnone => exact .apart (hlocked.trans hnone)
  | waiting => exact absurd rfl (hlock _ _)
  | holding hsome hholding => exact .holding (hlocked.trans hsome) hholding

/-- Of the tasks of a process one at most has the lock of a program. -/
theorem Orderly.lock_unique (h : Orderly settings system) (howner : worker.owner = other.owner)
    (hfirst : (system.stage worker).locked? = some id)
    (hsecond : (system.stage other).locked? = some id) : worker = other := by
  obtain ⟨ticket, hticket, hid, hholding⟩ := (h.placed worker).footing.ticket hfirst
  obtain ⟨another, hanother, hid', hholding'⟩ := (h.placed other).footing.ticket hsecond
  obtain ⟨owner, task⟩ := worker
  obtain ⟨owner', task'⟩ := other
  obtain rfl : owner = owner' := howner
  have htask : task = task' := (h.sound owner).holder_unique hticket hanother
    (hid.trans hid'.symm) (by rw [hholding]; nofun) (by rw [hholding']; nofun)
  rw [htask]

/-- Of all tasks one at most has claimed a program. -/
theorem Orderly.claim_unique (h : Orderly settings system) {since since' : Int}
    (hfirst : system.stage worker = .inside id since)
    (hsecond : system.stage other = .inside id since') : worker = other := by
  have hclaim := (h.claimed hfirst).symm.trans (h.claimed hsecond)
  have howner : worker.owner = other.owner := congrArg Claim.owner (Option.some.inj hclaim)
  exact h.lock_unique howner (congrArg Conduct.locked? hfirst) (congrArg Conduct.locked? hsecond)

theorem Placed.persists {settings : Settings} {owner : String} {store later : Store}
    {now time : Int} {situation : Situation} (h : Placed settings owner store now situation)
    (htime : now ≤ time) (hclaims : ∀ id since, situation.stage = .inside id since →
      later.claims.find? id = store.claims.find? id) :
    Placed settings owner later time situation where
  obeys := h.obeys
  footing := h.footing
  past reading hreading := (h.past reading hreading).trans htime
  claimed id since hinside := (hclaims id since hinside).trans (h.claimed id since hinside)

/-- A step of one task leaves the others as they are. -/
theorem Orderly.change (h : Orderly settings system) (worker : Worker) {situation : Situation}
    (hsound : ∀ owner, (later.locks owner).Sound) (htime : system.now ≤ later.now)
    (hsituation : ∀ other, later.situation other =
      if other = worker then situation else system.situation other)
    (hclaims : ∀ other, other ≠ worker → ∀ id since, system.stage other = .inside id since →
      later.store.claims.find? id = system.store.claims.find? id)
    (hplaced : Placed (settings worker.owner) worker.owner later.store later.now situation) :
    Orderly settings later where
  sound := hsound
  placed other := by
    rw [hsituation other]
    by_cases heq : other = worker
    · rw [if_pos heq, heq]
      exact hplaced
    · rw [if_neg heq]
      exact (h.placed other).persists htime (hclaims other heq)

/-! ## Locks -/

theorem sound_relock (h : Orderly settings system) {owner : String} {locks : Locks}
    (hsound : locks.Sound) (other : String) : ((system.relock owner locks).locks other).Sound := by
  unfold System.relock Function.update
  dsimp only
  split
  · rename_i heq
    subst heq
    exact hsound
  · exact h.sound other

theorem Orderly.asked (h : Orderly settings system) {request : Request}
    {next : request.Answer → Operation Unit} (hleft : system.left worker = .ask request next) :
    (system.stage worker).Allows (settings worker.owner) request ∧
      ∀ answer, (next answer).Obeys (conduct (settings worker.owner))
        (fun _ stage => ∃ reading, stage = .free reading)
        ((system.stage worker).after request answer) := by
  have hobeys := (h.placed worker).obeys
  change (system.left worker).Obeys _ _ _ at hobeys
  rw [hleft] at hobeys
  exact hobeys

theorem Orderly.footing (h : Orderly settings system) {found : Option LockTicket}
    (hfound : (system.locks worker.owner).ticket? worker.task = found) :
    Footing ⟨system.left worker, system.stage worker, found⟩ :=
  hfound ▸ (h.placed worker).footing

theorem Orderly.line (h : Orderly settings system) {next : Unit → Operation Unit} {locks : Locks}
    (hleft : system.left worker = .ask (.lock id) next)
    (hlocks : (system.locks worker.owner).request worker.task id = some locks) :
    Orderly settings (system.relock worker.owner locks) := by
  obtain ⟨hsound, -, lock, hticket⟩ := Locks.request_cases (h.sound worker.owner) hlocks
  obtain ⟨reading, hfree⟩ := (h.asked hleft).1
  obtain ⟨hobeys, -, hpast, hclaimed⟩ := h.placed worker
  refine h.change worker (sound_relock h hsound) le_rfl (situation_relock worker hticket)
    (fun _ _ _ _ _ => rfl) ⟨hobeys, ?_, hpast, hclaimed⟩
  change Footing ⟨system.left worker, system.stage worker, _⟩
  rw [hleft, hfree]
  exact .waiting ⟨worker.task, id, lock, .waiting⟩ rfl nofun

theorem Orderly.grant (h : Orderly settings system) {owner : String} {lock : Nat} {locks : Locks}
    (hlocks : (system.locks owner).grant lock = some locks) :
    Orderly settings (system.relock owner locks) := by
  obtain ⟨hsound, ticket, hfound, hwaiting, hticket⟩ := Locks.grant_cases (h.sound owner) hlocks
  have hfooting : Footing ⟨system.left ⟨owner, ticket.task⟩, system.stage ⟨owner, ticket.task⟩,
      some ticket⟩ := h.footing hfound
  obtain ⟨hobeys, -, hpast, hclaimed⟩ := h.placed ⟨owner, ticket.task⟩
  refine h.change ⟨owner, ticket.task⟩ (sound_relock h hsound) le_rfl
    (situation_relock ⟨owner, ticket.task⟩ hticket) (fun _ _ _ _ _ => rfl)
    ⟨hobeys, ?_, hpast, hclaimed⟩
  change Footing ⟨system.left ⟨owner, ticket.task⟩, system.stage ⟨owner, ticket.task⟩, _⟩
  generalize system.left ⟨owner, ticket.task⟩ = left at hfooting ⊢
  cases hfooting with
  | waiting _ hlocked => exact .waiting { ticket with stage := .granted } hlocked nofun
  | holding _ hholding => cases hwaiting.symm.trans hholding

/-- A task comes to another lock, or to none, and goes on. -/
theorem Orderly.exchange (h : Orderly settings system) {locks : Locks}
    {found : Option LockTicket} {left : Operation Unit} {stage : Conduct} (hsound : locks.Sound)
    (hticket : ∀ task, locks.ticket? task =
      if task = worker.task then found else (system.locks worker.owner).ticket? task)
    (hplaced : Placed (settings worker.owner) worker.owner system.store system.now
      ⟨left, stage, found⟩) :
    Orderly settings ((system.relock worker.owner locks).put worker left stage) :=
  h.change worker (sound_relock h hsound) le_rfl (situation_exchange hticket)
    (fun _ _ _ _ _ => rfl) hplaced

/-- A task that goes on with the lock has asked for it. -/
theorem Orderly.enter (h : Orderly settings system) {next : Unit → Operation Unit} {locks : Locks}
    (hleft : system.left worker = .ask (.lock id) next)
    (hlocks : (system.locks worker.owner).resume worker.task = some locks) :
    Orderly settings ((system.relock worker.owner locks).proceed worker (.lock id) () next) := by
  obtain ⟨hsound, ticket, hfound, hgranted, hticket⟩ :=
    Locks.resume_cases (h.sound worker.owner) hlocks
  obtain ⟨⟨reading, hfree⟩, hnext⟩ := h.asked hleft
  have hid : ticket.id = id := by
    have hfooting := h.footing hfound
    rw [hleft] at hfooting
    cases hfooting with
    | waiting => rfl
    | holding _ hholding => cases hgranted.symm.trans hholding
  have hobeys := hnext ()
  rw [hfree] at hobeys
  refine h.exchange hsound hticket ?_
  rw [System.relock_stage, hfree]
  exact ⟨hobeys, .holding (congrArg some hid.symm) rfl, nofun, nofun⟩

theorem Orderly.giveUp (h : Orderly settings system) {next : Unit → Operation Unit} {locks : Locks}
    (hleft : system.left worker = .ask (.lock id) next)
    (hlocks : (system.locks worker.owner).giveUp worker.task = some locks) :
    Orderly settings ((system.relock worker.owner locks).assign worker (.done ())) := by
  obtain ⟨hsound, -, -, -, hticket⟩ := Locks.giveUp_cases (h.sound worker.owner) hlocks
  obtain ⟨reading, hfree⟩ := (h.asked hleft).1
  refine h.exchange hsound hticket ⟨?_, .apart ?_, fun _ hlast => h.past hlast, ?_⟩
  · exact ⟨reading, hfree⟩
  · rw [System.relock_stage, hfree]
    rfl
  · rw [System.relock_stage, hfree]
    nofun

theorem Orderly.unlock (h : Orderly settings system) {next : Unit → Operation Unit} {locks : Locks}
    (hleft : system.left worker = .ask (.unlock id) next)
    (hlocks : (system.locks worker.owner).unlock worker.task = some locks) :
    Orderly settings ((system.relock worker.owner locks).proceed worker (.unlock id) () next) := by
  obtain ⟨hsound, -, -, -, hticket⟩ := Locks.unlock_cases (h.sound worker.owner) hlocks
  obtain ⟨⟨reading, hlocked⟩, hnext⟩ := h.asked hleft
  have hobeys := hnext ()
  rw [hlocked] at hobeys
  refine h.exchange hsound hticket ?_
  rw [System.relock_stage, hlocked]
  exact ⟨hobeys, .apart rfl, nofun, nofun⟩

theorem Orderly.sweep (h : Orderly settings system) {owner : String} {locks : Locks}
    (hlocks : (system.locks owner).sweep id = some locks) :
    Orderly settings (system.relock owner locks) := by
  obtain ⟨hsound, hticket⟩ := Locks.sweep_cases (h.sound owner) hlocks
  have hsituation (worker : Worker) :
      (system.relock owner locks).situation worker = system.situation worker := by
    unfold System.situation System.relock
    by_cases howner : worker.owner = owner
    · simp [howner, hticket]
    · simp [howner]
  refine ⟨sound_relock h hsound, fun worker => ?_⟩
  rw [hsituation worker]
  exact h.placed worker

/-! ## Other requests -/

theorem Orderly.begin (h : Orderly settings system) {command : Command}
    (hleft : system.left worker = .done ()) (hremoves : command.removes = false) :
    Orderly settings (system.assign worker (command.operation (settings worker.owner))) := by
  obtain ⟨hobeys, -, hpast, hclaimed⟩ := h.placed worker
  change (system.left worker).Obeys _ _ (system.stage worker) at hobeys
  rw [hleft] at hobeys
  obtain ⟨reading, hfree⟩ := hobeys
  refine h.change worker h.sound le_rfl situation_put (fun _ _ _ _ _ => rfl)
    ⟨?_, (h.footing rfl).goesOn (fun _ _ hlock => nomatch hleft.symm.trans hlock) rfl,
      hpast, hclaimed⟩
  change Obeys _ _ _ (system.stage worker)
  rw [hfree]
  exact (conducted _).holds hremoves reading

/-- A task that has asked for something other than a lock goes on. -/
theorem Orderly.proceed (h : Orderly settings system) {request : Request}
    {next : request.Answer → Operation Unit} (hleft : system.left worker = .ask request next)
    (hlock : ∀ id, request ≠ .lock id) (answer : request.Answer) (store : Store)
    (hlocked : ((system.stage worker).after request answer).locked? =
      (system.stage worker).locked?)
    (hclaims : ∀ other, other ≠ worker → ∀ id since, system.stage other = .inside id since →
      store.claims.find? id = system.store.claims.find? id)
    (hpast : ∀ reading, ((system.stage worker).after request answer).reading? = some reading →
      reading ≤ system.now)
    (hclaimed : ∀ id since, (system.stage worker).after request answer = .inside id since →
      store.claims.find? id = some ⟨worker.owner, since⟩) :
    Orderly settings ({ system with store }.proceed worker request answer next) := by
  refine h.change worker h.sound le_rfl situation_put hclaims
    ⟨(h.asked hleft).2 answer, ?_, hpast, hclaimed⟩
  refine (h.footing rfl).goesOn (fun id next hsame => ?_) hlocked
  cases hleft.symm.trans hsame
  exact hlock id rfl

/-- An answer that leaves a task as far as it is, and the claims as they are. -/
theorem Orderly.stays (h : Orderly settings system) {request : Request}
    {next : request.Answer → Operation Unit} (hleft : system.left worker = .ask request next)
    (hlock : ∀ id, request ≠ .lock id) {answer : request.Answer}
    (hstays : (system.stage worker).after request answer = system.stage worker) {store : Store}
    (hclaims : store.claims = system.store.claims) :
    Orderly settings ({ system with store }.proceed worker request answer next) := by
  obtain ⟨-, -, hpast, hclaimed⟩ := h.placed worker
  refine h.proceed hleft hlock answer store ?_ (fun _ _ _ _ _ => by rw [hclaims]) ?_ ?_
  · rw [hstays]
  · rw [hstays]
    exact hpast
  · rw [hstays, hclaims]
    exact hclaimed

theorem Orderly.leaves (h : Orderly settings system) {request : Request}
    {next : request.Answer → Operation Unit} (hleft : system.left worker = .ask request next)
    (hrequest : request.LeavesClaims) (answer : request.Answer) {store : Store}
    (hclaims : store.claims = system.store.claims) :
    Orderly settings ({ system with store }.proceed worker request answer next) := by
  apply h.stays hleft ?_ ?_ hclaims
  · rintro id rfl
    exact hrequest
  · exact (@conduct_leaves (settings worker.owner) request hrequest _).2 answer

theorem Orderly.read (h : Orderly settings system) {next : Int → Operation Unit}
    (hleft : system.left worker = .ask .wallClock next) :
    Orderly settings (system.proceed worker .wallClock system.now next) := by
  cases hstage : system.stage worker with
  | free | locked =>
      refine h.proceed hleft (fun _ hlock => nomatch hlock) system.now system.store ?_
        (fun _ _ _ _ _ => rfl) ?_ ?_
      · rw [hstage]
        rfl
      · rw [hstage]
        exact fun reading hreading => (Option.some.inj hreading).ge
      · rw [hstage]
        nofun
  | inside =>
      refine h.stays hleft (fun _ hlock => nomatch hlock) ?_ rfl
      rw [hstage]
      rfl

/-- Claims are not dropped while they are held in time. -/
theorem Orderly.kept (h : Orderly settings system) (hpunctual : system.Punctual ttl)
    {reading since : Int} {maxAge : Nat} (hread : reading ≤ system.now) (hage : ttl ≤ maxAge)
    (hinside : system.stage worker = .inside id since) :
    (system.store.recoverStale reading maxAge).2.claims.find? id = some ⟨worker.owner, since⟩ := by
  have hyoung : reading ≤ since + maxAge * 1000 := by
    have := hpunctual worker id since hinside
    omega
  exact Store.recoverStale_kept (h.claimed hinside) hyoung

/-- As long as a task holds a program in time, a claim of another one is refused. -/
theorem Orderly.tryClaim_others (h : Orderly settings system) (hpunctual : system.Punctual ttl)
    (httl : ttl ≤ (settings worker.owner).lockTtl) {key : String} {reading : Int}
    (hlocked : system.stage worker = .locked key (some reading)) (hne : other ≠ worker)
    {since : Int} (hinside : system.stage other = .inside id since) :
    (system.store.tryClaim key worker.owner reading (settings worker.owner).lockTtl).2.claims.find?
      id = system.store.claims.find? id := by
  by_cases hkey : id = key
  · subst hkey
    have howner : other.owner ≠ worker.owner := by
      intro howner
      apply hne
      apply h.lock_unique howner (congrArg Conduct.locked? hinside)
      rw [hlocked]
      rfl
    have hread : reading ≤ system.now := h.past (congrArg Conduct.reading? hlocked)
    have hlive : reading < since + (settings worker.owner).lockTtl * 1000 := by
      have := hpunctual other id since hinside
      omega
    rw [Store.tryClaim_refused (h.claimed hinside) howner hlive]
  · exact Store.tryClaim_other hkey

/-- A transaction of one task leaves the claims of the tasks that hold programs. -/
theorem Orderly.claims_others (h : Orderly settings system) (hpunctual : system.Punctual ttl)
    (hsettings : (settings worker.owner).owner = worker.owner)
    (httl : ttl ≤ (settings worker.owner).lockTtl) {request : Store.Request}
    (hallowed : (system.stage worker).Allows (settings worker.owner) (.store request))
    (hne : other ≠ worker) {since : Int} (hinside : system.stage other = .inside id since) :
    (Store.respond request system.store).2.claims.find? id = system.store.claims.find? id := by
  cases request with
  | insert | get | list | update | save | claim => rw [claims_respond (by trivial)]
  | remove => exact hallowed.elim
  | tryClaim key owner reading seconds =>
      obtain ⟨hlocked, rfl, rfl⟩ := hallowed
      rw [hsettings]
      exact h.tryClaim_others hpunctual httl hlocked hne hinside
  | release key owner =>
      obtain ⟨⟨started, hown⟩, -⟩ := hallowed
      have hkey : id ≠ key := by
        rintro rfl
        exact hne (h.claim_unique hinside hown)
      exact Store.release_other hkey
  | recoverStale reading maxAge =>
      obtain ⟨hfree, rfl⟩ := hallowed
      have hread : reading ≤ system.now := h.past (congrArg Conduct.reading? hfree)
      exact (h.kept hpunctual hread httl hinside).trans (h.claimed hinside).symm

/-- A claim that is refused leaves a task as far as it is, and it keeps the lock. -/
theorem Orderly.tryClaim (h : Orderly settings system)
    (hsettings : (settings worker.owner).owner = worker.owner) {owner : String} {reading : Int}
    {seconds : Nat} {next : Except Error Bool → Operation Unit}
    (hleft : system.left worker = .ask (.store (.tryClaim id owner reading seconds)) next)
    (hclaims : ∀ other, other ≠ worker → ∀ key since, system.stage other = .inside key since →
      (system.store.tryClaim id owner reading seconds).2.claims.find? key =
        system.store.claims.find? key) :
    Orderly settings
      ({ system with store := (system.store.tryClaim id owner reading seconds).2 }.proceed worker
        (.store (.tryClaim id owner reading seconds))
        (system.store.tryClaim id owner reading seconds).1 next) := by
  obtain ⟨hlocked, hown, -⟩ := (h.asked hleft).1
  rcases Conduct.after_tryClaim id owner (some reading) reading seconds
    (system.store.tryClaim id owner reading seconds).1 with hafter | ⟨hafter, hanswer⟩
  · rw [← hlocked] at hafter
    refine h.proceed hleft (fun _ hlock => nomatch hlock) _ _ ?_ hclaims ?_ ?_
    · rw [hafter]
    · rw [hafter]
      exact fun last hlast => h.past hlast
    · rw [hafter, hlocked]
      nofun
  · rw [← hlocked] at hafter
    refine h.proceed hleft (fun _ hlock => nomatch hlock) _ _ ?_ hclaims ?_ ?_
    · rw [hafter, hlocked]
      rfl
    · rw [hafter]
      nofun
    · rw [hafter]
      rintro _ _ ⟨⟩
      rw [Store.tryClaim_claimed hanswer, hown, hsettings]

theorem Orderly.transact (h : Orderly settings system) (hpunctual : system.Punctual ttl)
    (hsettings : (settings worker.owner).owner = worker.owner)
    (httl : ttl ≤ (settings worker.owner).lockTtl) {request : Store.Request}
    {next : request.Answer → Operation Unit}
    (hleft : system.left worker = .ask (.store request) next) :
    Orderly settings ({ system with store := (Store.respond request system.store).2 }.proceed
      worker (.store request) (Store.respond request system.store).1 next) := by
  have hallowed := (h.asked hleft).1
  have hclaims (other : Worker) (hne : other ≠ worker) (id : String) (since : Int)
      (hinside : system.stage other = .inside id since) :
      (Store.respond request system.store).2.claims.find? id = system.store.claims.find? id :=
    h.claims_others hpunctual hsettings httl hallowed hne hinside
  cases request with
  | insert | get | list | update | save | claim =>
      exact h.leaves hleft (by trivial) _ (claims_respond (by trivial) system.store)
  | remove => exact hallowed.elim
  | tryClaim => exact h.tryClaim hsettings hleft hclaims
  | release =>
      obtain ⟨⟨since, hinside⟩, -⟩ := hallowed
      refine h.proceed hleft (fun _ hlock => nomatch hlock) _ _ ?_ hclaims ?_ ?_
      · rw [hinside]
        rfl
      · rw [hinside]
        nofun
      · rw [hinside]
        nofun
  | recoverStale =>
      obtain ⟨hfree, -⟩ := hallowed
      refine h.proceed hleft (fun _ hlock => nomatch hlock) _ _ ?_ hclaims ?_ ?_
      · rw [hfree]
        rfl
      · intro last hlast
        apply h.past
        rw [hfree] at hlast ⊢
        exact hlast
      · rw [hfree]
        nofun

/-! ## Every order of steps -/

theorem Orderly.wait (h : Orderly settings system) {time : Int} (htime : system.now ≤ time) :
    Orderly settings { system with now := time } where
  sound := h.sound
  placed worker := (h.placed worker).persists htime fun _ _ _ => rfl

theorem Orderly.recover (h : Orderly settings system) (hpunctual : system.Punctual ttl)
    {reading : Int} {maxAge : Nat} (hread : reading ≤ system.now) (hage : ttl ≤ maxAge) :
    Orderly settings { system with store := (system.store.recoverStale reading maxAge).2 } where
  sound := h.sound
  placed worker := (h.placed worker).persists le_rfl fun _ _ hinside =>
    (h.kept hpunctual hread hage hinside).trans (h.claimed hinside).symm

/-- A task of which nothing is left holds nothing. -/
theorem placed_gone (settings : Settings) (owner : String) (store : Store) (now : Int) :
    Placed settings owner store now ⟨.done (), .free none, none⟩ where
  obeys := ⟨none, rfl⟩
  footing := .apart rfl
  past _ hreading := nomatch hreading
  claimed _ _ hinside := nomatch hinside

theorem Orderly.die (h : Orderly settings system) (owner : String) :
    Orderly settings (system.without owner) := by
  have hsituation (worker : Worker) : (system.without owner).situation worker =
      if worker.owner = owner then ⟨.done (), .free none, none⟩ else system.situation worker := by
    unfold System.situation System.without
    by_cases howner : worker.owner = owner
    · rw [if_pos howner]
      dsimp only
      rw [if_pos howner, if_pos howner, howner, Function.update_self]
      rfl
    · rw [if_neg howner]
      dsimp only
      rw [if_neg howner, if_neg howner, Function.update_of_ne howner]
  refine ⟨fun other => ?_, fun worker => ?_⟩
  · exact sound_relock h .empty other
  · rw [hsituation worker]
    by_cases howner : worker.owner = owner
    · rw [if_pos howner]
      exact placed_gone ..
    · rw [if_neg howner]
      exact h.placed worker

theorem orderly_start (store : Store) (now : Int) : Orderly settings (.start store now) where
  sound _ := .empty
  placed _ := placed_gone ..

theorem Orderly.step (hsettings : ∀ owner, (settings owner).owner = owner)
    (httl : ∀ owner, ttl ≤ (settings owner).lockTtl) (h : Orderly settings system)
    (hpunctual : system.Punctual ttl) (hstep : SystemStep settings ttl system later) :
    Orderly settings later := by
  cases hstep with
  | wait hlater => exact h.wait hlater
  | begin hleft hremoves => exact h.begin hleft hremoves
  | line hleft hlocks => exact h.line hleft hlocks
  | grant hlocks => exact h.grant hlocks
  | enter hleft hlocks => exact h.enter hleft hlocks
  | giveUp hleft hlocks => exact h.giveUp hleft hlocks
  | unlock hleft hlocks => exact h.unlock hleft hlocks
  | sweep hlocks => exact h.sweep hlocks
  | read hleft => exact h.read hleft
  | transact hleft => exact h.transact hpunctual (hsettings _) (httl _) hleft
  | ask houtside answer hleft =>
      exact h.leaves hleft (by cases houtside <;> trivial) answer rfl
  | recover hread hage => exact h.recover hpunctual hread hage
  | die owner => exact h.die owner

theorem Reached.orderly (hsettings : ∀ owner, (settings owner).owner = owner)
    (httl : ∀ owner, ttl ≤ (settings owner).lockTtl) (h : Reached settings ttl system) :
    Orderly settings system := by
  induction h with
  | start store now => exact orderly_start store now
  | step _ hpunctual hstep ih => exact ih.step hsettings httl hpunctual hstep

/-- A program is had by one task at a time. -/
structure System.Exclusive (ttl : Nat) (system : System) : Prop where
  /-- Of all tasks one at most is between its claim of a program and the release. -/
  alone : ∀ worker other id since since', system.stage worker = .inside id since →
    system.stage other = .inside id since' → worker = other
  /-- A release drops the claim of the task that asks for it, and no other. -/
  own : ∀ worker id owner next, system.left worker = .ask (.store (.release id owner)) next →
    ∃ since, system.stage worker = .inside id since ∧
      system.store.claims.find? id = some ⟨worker.owner, since⟩ ∧
      ∀ key, (system.store.release id owner).claims.find? key =
        if key = id then none else system.store.claims.find? key
  /-- Dropping abandoned claims leaves the claims of tasks that hold programs. -/
  kept : system.Punctual ttl → ∀ reading ≤ system.now, ∀ maxAge ≥ ttl, ∀ worker id since,
    system.stage worker = .inside id since →
    (system.store.recoverStale reading maxAge).2.claims.find? id = some ⟨worker.owner, since⟩

/-- In any order of steps of any number of processes, if their names differ and every task
drops its claim in time, a program is had by one task at a time. -/
theorem Reached.exclusive (hsettings : ∀ owner, (settings owner).owner = owner)
    (httl : ∀ owner, ttl ≤ (settings owner).lockTtl) (h : Reached settings ttl system) :
    system.Exclusive ttl := by
  have horderly := h.orderly hsettings httl
  constructor
  · intro worker other id since since' hfirst hsecond
    exact horderly.claim_unique hfirst hsecond
  · intro worker id owner next hleft
    obtain ⟨⟨since, hinside⟩, howner⟩ := (horderly.asked hleft).1
    have hclaim := horderly.claimed hinside
    refine ⟨since, hinside, hclaim, ?_⟩
    exact Store.release_own hclaim (howner.trans (hsettings _)).symm
  · intro hpunctual reading hread maxAge hage worker id since hinside
    exact horderly.kept hpunctual hread hage hinside

/-- Processes under different names. -/
def rivals (owner : String) : Settings := ⟨owner, 9, 300, none, 0⟩

/-- Locks of which one is asked for by one task. -/
def oneLock (stage : LockStage) : Locks := ⟨.ofList [("p", 0)], [⟨0, "p", 0, stage⟩], [], 1⟩

/-- A task. -/
def firstTask : Worker := ⟨"a", 0⟩

/-- Processes of which one has been given something to do. -/
def firstBegun : System :=
  (System.start .empty 1000).assign firstTask ((Command.run "p").operation (rivals "a"))

/-- A task that nobody disturbs gets as far as claiming a program. -/
theorem one_has_claimed : ∃ system, Reached rivals 300 system ∧
    system.stage firstTask = .inside "p" 1000 ∧ system.Exclusive 300 := by
  have hidle : (System.start .empty 1000).Punctual 300 := nofun
  have hbusy : firstBegun.Punctual 300 := .put hidle nofun
  have hbegun : Reached rivals 300 firstBegun := .step (.start .empty 1000) hidle (.begin rfl rfl)
  have hlined := hbegun.step hbusy (@SystemStep.line _ _ _ firstTask "p" _ (oneLock .waiting) rfl rfl)
  have hasked := hbusy.relock "a" (oneLock .waiting)
  have hgranted := hlined.step hasked (@SystemStep.grant _ _ _ "a" 0 (oneLock .granted) rfl)
  have hpassed := hasked.relock "a" (oneLock .granted)
  have hentered := hgranted.step hpassed
    (@SystemStep.enter _ _ _ firstTask "p" _ (oneLock .holding) rfl rfl)
  have hheld := hpassed.relock "a" (oneLock .holding)
  have hread := hentered.step (hheld.proceed nofun) (@SystemStep.read _ _ _ firstTask _ rfl)
  have hready (id : String) (since : Int) : Conduct.locked "p" (some 1000) ≠ .inside id since :=
    nofun
  have hclaimed := hread.step (by
    refine .proceed ?_ fun id since hinside => absurd hinside (hready id since)
    exact hheld.proceed nofun)
    (@SystemStep.transact _ _ _ firstTask _ _ rfl)
  exact ⟨_, hclaimed, rfl, hclaimed.exclusive (fun _ => rfl) fun _ => le_rfl⟩

end ProgramQueue.Queue
