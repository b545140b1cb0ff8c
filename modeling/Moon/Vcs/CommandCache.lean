import Moon.Vcs.Git

/-! # `run_command` under concurrency

The system of all calls on one `Git`: the cache and each call's phase. A step is one call moving
on (`step`) under the guards of the read/write lock, and a run is any sequence of steps, so runs
are the interleavings; the subprocess's output is part of the step that runs it, so runs cover
every oracle. `step_cases` says once what a step can do.

Nothing is looked up again between dropping the read guard and taking the write guard, so two
calls that both miss both write, and a value already returned can be replaced
(`later_calls_disagree`). Once the cache holds `v` and no call for that command line has missed
without returning, `v` stays and every call for it returns `v` (`cached_value_stays`), since a
writer inserts only while no one reads (`HitsCached`). One call alone is `Git.runCommand`
(`runCommand_solo_run`), so requests served one after another are a run
(`runSequentially_refines`).
-/

namespace Moon.Vcs.CommandCache

/-- Where one call of `run_command` is. A call holds the read guard in `hit` and `miss`, and the
write guard from `writing` to `inserted`. -/
inductive Phase
  /-- called, nothing done yet -/
  | called
  /-- read guard held, the command line was cached with `value` -/
  | hit (value : String)
  /-- read guard held, the command line was not cached -/
  | miss
  /-- read guard dropped after a miss -/
  | missed
  /-- write guard held -/
  | writing
  /-- write guard held, the output read as `value` -/
  | executed (value : String)
  /-- write guard held, the subprocess failed -/
  | failed (error : VcsError)
  /-- write guard held, `value` inserted -/
  | inserted (value : String)
  /-- returned `Ok(value)` -/
  | returned (value : String)
  /-- returned the error -/
  | errored (error : VcsError)
  deriving DecidableEq

namespace Phase

def holdsRead : Phase → Bool
  | hit _ | miss => true
  | _ => false

def holdsWrite : Phase → Bool
  | writing | executed _ | failed _ | inserted _ => true
  | _ => false

/-- The call has missed the cache and not yet returned. -/
def afterMiss : Phase → Bool
  | miss | missed | writing | executed _ | failed _ | inserted _ => true
  | _ => false

/-- The phase of a call that returned `result`. -/
def ofResult : Except VcsError String → Phase
  | .ok value => returned value
  | .error e => errored e

end Phase

/-- One call of `run_command`: its command, whether the output is trimmed, and its phase. -/
structure Call where
  command : Command
  trim : Bool
  phase : Phase
  deriving DecidableEq

/-- The cache key of a call, `get_command_line()`. -/
def Call.key (c : Call) : String := c.command.getCommandLine

/-- The calls made on one `Git`, in the order they began, and the shared cache. -/
structure Sys where
  cache : BTreeMap
  calls : List Call

namespace Sys

/-- Some call holds the write guard. -/
def writerHeld (s : Sys) : Bool := s.calls.any (·.phase.holdsWrite)

/-- Some call holds the read guard. -/
def readerHeld (s : Sys) : Bool := s.calls.any (·.phase.holdsRead)

/-- Call `i` (which is `c`) moves to phase `p`. -/
def setPhase (s : Sys) (i : Nat) (c : Call) (p : Phase) : Sys :=
  { s with calls := s.calls.set i { c with phase := p } }

/-- Call `i` has returned `value`. -/
def Returned (s : Sys) (i : Nat) (value : String) : Prop :=
  ∃ c, s.calls[i]? = some c ∧ c.phase = .returned value

end Sys

/-- A step of one call, named by the call's index; `exec` carries what the subprocess gave. -/
inductive Action
  /-- a new call of `run_command` -/
  | call (command : Command) (trim : Bool)
  /-- `cache.read().await` and the lookup -/
  | lookup (i : Nat)
  /-- a guard dropped: after a lookup, or at return -/
  | release (i : Nat)
  /-- `cache.write().await` -/
  | acquireWrite (i : Nat)
  /-- `command.exec_capture_output().await` -/
  | exec (i : Nat) (output : Except VcsError String)
  /-- `cache.insert(cache_key, value)` -/
  | insert (i : Nat)

/-- One step of `run_command`'s body for one call; `none` where the call cannot take it (it is
elsewhere, or the lock makes it wait). -/
def step (s : Sys) : Action → Option Sys
  | .call command trim => some { s with calls := s.calls ++ [⟨command, trim, .called⟩] }
  | .lookup i => s.calls[i]?.bind fun c =>
    if c.phase = .called ∧ s.writerHeld = false then
      some (s.setPhase i c (match s.cache.get? c.key with
        | some value => .hit value
        | none => .miss))
    else none
  | .release i => s.calls[i]?.bind fun c =>
    match c.phase with
    | .hit value | .inserted value => some (s.setPhase i c (.returned value))
    | .miss => some (s.setPhase i c .missed)
    | .failed e => some (s.setPhase i c (.errored e))
    | _ => none
  | .acquireWrite i => s.calls[i]?.bind fun c =>
    if c.phase = .missed ∧ s.readerHeld = false ∧ s.writerHeld = false then
      some (s.setPhase i c .writing)
    else none
  | .exec i output => s.calls[i]?.bind fun c =>
    if c.phase = .writing then
      some (s.setPhase i c (match output with
        | .ok stdout => .executed (Git.outputValue c.trim stdout)
        | .error e => .failed e))
    else none
  | .insert i => s.calls[i]?.bind fun c =>
    match c.phase with
    | .executed value => some { s.setPhase i c (.inserted value) with
        cache := s.cache.insert c.key value }
    | _ => none

/-- A run: the steps in turn, `none` if one cannot be taken. -/
def run (s : Sys) : List Action → Option Sys
  | [] => some s
  | a :: rest => (step s a).bind fun s' => run s' rest

/-- The states a `Git` reaches from any cache with no call in flight. -/
def Reachable (s : Sys) : Prop := ∃ cache actions, run ⟨cache, []⟩ actions = some s

/-! ## What a step can do -/

/-- What a step does to an existing call `c` of `s`: the phase it moves to, under the guard the
code and the lock impose. -/
inductive Moves (s : Sys) (c : Call) : Phase → Prop
  | lookupHit {value : String} : c.phase = .called → s.writerHeld = false →
      s.cache.get? c.key = some value → Moves s c (.hit value)
  | lookupMiss : c.phase = .called → s.writerHeld = false → s.cache.get? c.key = none →
      Moves s c .miss
  | releaseHit {value : String} : c.phase = .hit value → Moves s c (.returned value)
  | releaseMiss : c.phase = .miss → Moves s c .missed
  | acquireWrite : c.phase = .missed → s.readerHeld = false → s.writerHeld = false →
      Moves s c .writing
  | execOk {stdout : String} : c.phase = .writing →
      Moves s c (.executed (Git.outputValue c.trim stdout))
  | execError {e : VcsError} : c.phase = .writing → Moves s c (.failed e)
  | insert {value : String} : c.phase = .executed value → Moves s c (.inserted value)
  | releaseInserted {value : String} : c.phase = .inserted value → Moves s c (.returned value)
  | releaseFailed {e : VcsError} : c.phase = .failed e → Moves s c (.errored e)

/-- The cache after a call `c` moves to phase `p`: only the insert writes. -/
def Sys.cacheAfter (s : Sys) (c : Call) : Phase → BTreeMap
  | .inserted value => s.cache.insert c.key value
  | _ => s.cache

/-- A step adds a call, or moves one call as `Moves` allows and changes nothing else. -/
theorem step_cases {s s' : Sys} {a : Action} (h : step s a = some s') :
    (∃ command trim, s' = { s with calls := s.calls ++ [⟨command, trim, .called⟩] }) ∨
    ∃ i c p, s.calls[i]? = some c ∧ Moves s c p ∧
      s' = ⟨s.cacheAfter c p, s.calls.set i { c with phase := p }⟩ := by
  cases a with
  | call command trim => exact .inl ⟨command, trim, (Option.some.inj h).symm⟩
  | lookup i =>
    obtain ⟨c, hc, h⟩ := Option.bind_eq_some.1 h
    split_ifs at h with guard
    right
    cases hv : s.cache.get? c.key with
    | none =>
      simp only [hv, Option.some.injEq] at h
      exact ⟨i, c, _, hc, .lookupMiss guard.1 guard.2 hv, h ▸ rfl⟩
    | some value =>
      simp only [hv, Option.some.injEq] at h
      exact ⟨i, c, _, hc, .lookupHit guard.1 guard.2 hv, h ▸ rfl⟩
  | release i =>
    obtain ⟨c, hc, h⟩ := Option.bind_eq_some.1 h
    right
    cases hp : c.phase <;> simp only [hp, Option.some.injEq, reduceCtorEq] at h <;> subst h
    · exact ⟨i, c, _, hc, .releaseHit hp, rfl⟩
    · exact ⟨i, c, _, hc, .releaseMiss hp, rfl⟩
    · exact ⟨i, c, _, hc, .releaseFailed hp, rfl⟩
    · exact ⟨i, c, _, hc, .releaseInserted hp, rfl⟩
  | acquireWrite i =>
    obtain ⟨c, hc, h⟩ := Option.bind_eq_some.1 h
    split_ifs at h with guard
    exact .inr ⟨i, c, _, hc, .acquireWrite guard.1 guard.2.1 guard.2.2, (Option.some.inj h) ▸ rfl⟩
  | exec i output =>
    obtain ⟨c, hc, h⟩ := Option.bind_eq_some.1 h
    split_ifs at h with guard
    right
    cases output with
    | ok stdout => exact ⟨i, c, _, hc, .execOk guard, by rw [← Option.some.inj h]; rfl⟩
    | error e => exact ⟨i, c, _, hc, .execError guard, by rw [← Option.some.inj h]; rfl⟩
  | insert i =>
    obtain ⟨c, hc, h⟩ := Option.bind_eq_some.1 h
    right
    cases hp : c.phase <;> simp only [hp, Option.some.injEq, reduceCtorEq] at h
    exact ⟨i, c, _, hc, .insert hp, h ▸ rfl⟩

/-- An invariant of steps holds along every run. -/
theorem run_invariant {P : Sys → Prop} (hstep : ∀ s a s', P s → step s a = some s' → P s') :
    ∀ {s : Sys} {actions : List Action} {s' : Sys}, P s → run s actions = some s' → P s'
  | _, [], _, hs, h => Option.some.inj h ▸ hs
  | s, a :: rest, s', hs, h => by
    obtain ⟨t, ht, h⟩ := Option.bind_eq_some.1 h
    exact run_invariant hstep (hstep s a t hs ht) h

/-! ## What the lock guarantees -/

/-- While a call holds the write guard, no other call holds a guard. -/
def LockOk (calls : List Call) : Prop :=
  ∀ (i j : Nat) (ci cj : Call), calls[i]? = some ci → calls[j]? = some cj → i ≠ j →
    ci.phase.holdsWrite → cj.phase.holdsRead = false ∧ cj.phase.holdsWrite = false

/-- A call that holds the read guard after a hit read what the cache still holds. -/
def HitsCached (s : Sys) : Prop :=
  ∀ (i : Nat) (c : Call) (value : String), s.calls[i]? = some c → c.phase = .hit value →
    s.cache.get? c.key = some value

theorem getElem?_set_of_some {calls : List Call} {i : Nat} {c : Call} (hc : calls[i]? = some c)
    (c' : Call) (j : Nat) : (calls.set i c')[j]? = if i = j then some c' else calls[j]? := by
  have lt : i < calls.length := by
    by_contra h
    rw [List.getElem?_eq_none (by omega)] at hc
    cases hc
  simp only [List.getElem?_set, lt, if_true]

theorem getElem?_append_call (calls : List Call) (c : Call) (j : Nat) :
    (calls ++ [c])[j]? = if j = calls.length then some c else calls[j]? := by
  rw [List.getElem?_append]
  split_ifs with h₁ h₂ h₂
  · omega
  · rfl
  · subst h₂
    simp
  · rw [List.getElem?_eq_none (by simp; omega), List.getElem?_eq_none (by omega)]

theorem Sys.holdsWrite_eq_false {s : Sys} (h : s.writerHeld = false) {j : Nat} {c : Call}
    (hj : s.calls[j]? = some c) : c.phase.holdsWrite = false := by
  simp only [Sys.writerHeld, List.any_eq_false] at h
  exact Bool.eq_false_iff.2 (h c (List.getElem?_mem hj))

theorem Sys.holdsRead_eq_false {s : Sys} (h : s.readerHeld = false) {j : Nat} {c : Call}
    (hj : s.calls[j]? = some c) : c.phase.holdsRead = false := by
  simp only [Sys.readerHeld, List.any_eq_false] at h
  exact Bool.eq_false_iff.2 (h c (List.getElem?_mem hj))

/-- Moving one call keeps the lock's guarantee when a new write hold is taken only with no
other holder, and a new read hold only with no writer. -/
theorem lockOk_set {calls : List Call} (inv : LockOk calls) {i : Nat} {c : Call}
    (hc : calls[i]? = some c) {p : Phase}
    (write : p.holdsWrite → c.phase.holdsWrite ∨
      ∀ (j : Nat) (cj : Call), calls[j]? = some cj →
        cj.phase.holdsRead = false ∧ cj.phase.holdsWrite = false)
    (read : p.holdsRead → c.phase.holdsRead ∨
      ∀ (j : Nat) (cj : Call), calls[j]? = some cj → cj.phase.holdsWrite = false) :
    LockOk (calls.set i { c with phase := p }) := by
  intro a b ca cb ha hb hab hw
  rw [getElem?_set_of_some hc] at ha hb
  by_cases hai : i = a
  · subst hai
    rw [if_pos rfl, Option.some.injEq] at ha
    rw [if_neg hab] at hb
    subst ha
    rcases write hw with held | free
    · exact inv i b c cb hc hb hab held
    · exact free b cb hb
  · rw [if_neg hai] at ha
    by_cases hbi : i = b
    · subst hbi
      rw [if_pos rfl, Option.some.injEq] at hb
      subst hb
      -- `c` held nothing while `ca` wrote, so the guard `p` asks for is not granted
      have cFree := inv a i ca c ha hc (Ne.symm hai) hw
      refine ⟨Bool.eq_false_iff.2 fun hp => ?_, Bool.eq_false_iff.2 fun hp => ?_⟩
      · rcases read hp with held | free
        · simp [cFree.1] at held
        · simp [free a ca ha] at hw
      · rcases write hp with held | free
        · simp [cFree.2] at held
        · simp [(free a ca ha).2] at hw
    · rw [if_neg hbi] at hb
      exact inv a b ca cb ha hb hab hw

theorem lockOk_step {s s' : Sys} {a : Action} (inv : LockOk s.calls) (h : step s a = some s') :
    LockOk s'.calls := by
  rcases step_cases h with ⟨command, trim, rfl⟩ | ⟨i, c, p, hc, move, rfl⟩
  · intro x y cx cy hx hy hxy hw
    rw [getElem?_append_call] at hx hy
    by_cases hxl : x = s.calls.length
    · rw [if_pos hxl, Option.some.injEq] at hx
      subst hx
      simp [Phase.holdsWrite] at hw
    · rw [if_neg hxl] at hx
      by_cases hyl : y = s.calls.length
      · rw [if_pos hyl, Option.some.injEq] at hy
        subst hy
        simp [Phase.holdsRead, Phase.holdsWrite]
      · rw [if_neg hyl] at hy
        exact inv x y cx cy hx hy hxy hw
  · apply lockOk_set inv hc
    · intro hw
      cases move with
      | acquireWrite _ r w =>
        exact .inr fun j cj hj => ⟨Sys.holdsRead_eq_false r hj, Sys.holdsWrite_eq_false w hj⟩
      | execOk hp | execError hp => exact .inl (by simp [hp, Phase.holdsWrite])
      | insert hp => exact .inl (by simp [hp, Phase.holdsWrite])
      | _ => simp [Phase.holdsWrite] at hw
    · intro hr
      cases move with
      | lookupHit _ w _ | lookupMiss _ w _ => exact .inr fun j cj hj => Sys.holdsWrite_eq_false w hj
      | _ => simp [Phase.holdsRead] at hr

/-- A writer inserts only while no reader holds the lock, so every hit is still what the cache
holds. -/
theorem hitsCached_step {s s' : Sys} {a : Action} (lock : LockOk s.calls) (inv : HitsCached s)
    (h : step s a = some s') : HitsCached s' := by
  rcases step_cases h with ⟨command, trim, rfl⟩ | ⟨i, c, p, hc, move, rfl⟩
  · intro j cj value hj hp
    rw [getElem?_append_call] at hj
    split_ifs at hj
    · obtain rfl := Option.some.inj hj
      cases hp
    · exact inv j cj value hj hp
  · intro j cj value hj hp
    rw [getElem?_set_of_some hc] at hj
    split_ifs at hj with hij
    · obtain rfl := Option.some.inj hj
      cases move with
      | lookupHit _ _ hv => cases hp; exact hv
      | _ => cases hp
    · have old := inv j cj value hj hp
      cases move with
      | insert hexec =>
        have reader := (lock i j c cj hc hj hij (by simp [hexec, Phase.holdsWrite])).1
        simp [hp, Phase.holdsRead] at reader
      | _ => exact old

/-- The lock's guarantee and the readers' view hold in every reachable state. -/
theorem Reachable.inv {s : Sys} (reach : Reachable s) : LockOk s.calls ∧ HitsCached s := by
  obtain ⟨cache, actions, ran⟩ := reach
  have start : LockOk ([] : List Call) ∧ HitsCached ⟨cache, []⟩ :=
    ⟨fun _ _ _ _ h => by simp at h, fun _ _ _ h => by simp at h⟩
  exact @run_invariant (fun s => LockOk s.calls ∧ HitsCached s)
    (fun _ _ _ inv h => ⟨lockOk_step inv.1 h, hitsCached_step inv.1 inv.2 h⟩) _ _ _ start ran

/-! ## A value that stays -/

/-- No call for `key` has missed the cache without returning. -/
def NoMissPending (s : Sys) (key : String) : Prop :=
  ∀ c ∈ s.calls, c.key = key → c.phase.afterMiss = false

instance (s : Sys) (key : String) : Decidable (NoMissPending s key) :=
  inferInstanceAs (Decidable (∀ c ∈ s.calls, c.key = key → c.phase.afterMiss = false))

/-- What being settled asks of one call for the key, at index `i` and in phase `p`: it is not
pending after a miss, a hit read `value`, and a return since `s₀` returned `value`. -/
structure CallSettled (s₀ : Sys) (value : String) (i : Nat) (p : Phase) : Prop where
  noMiss : p.afterMiss = false
  hit : ∀ w, p = .hit w → w = value
  returned : ∀ w, p = .returned w → w = value ∨ s₀.Returned i w

theorem CallSettled.called {s₀ : Sys} {value : String} {i : Nat} :
    CallSettled s₀ value i .called :=
  ⟨rfl, fun _ h => (nomatch h), fun _ h => (nomatch h)⟩

theorem CallSettled.of_value {s₀ : Sys} {value : String} {i : Nat} {p : Phase}
    (h : p = .hit value ∨ p = .returned value) : CallSettled s₀ value i p := by
  rcases h with rfl | rfl <;>
    exact ⟨rfl, fun _ h => by cases h <;> rfl, fun _ h => by cases h <;> exact .inl rfl⟩

/-- From `s₀` on, `key` is settled on `value`: cached with it, and every call for it settled. -/
structure Settled (s₀ : Sys) (key value : String) (s : Sys) : Prop where
  cached : s.cache.get? key = some value
  calls : ∀ (i : Nat) (c : Call), s.calls[i]? = some c → c.key = key →
    CallSettled s₀ value i c.phase

theorem cacheAfter_get?_of_ne {s : Sys} {c : Call} {key : String} (hk : c.key ≠ key) (p : Phase) :
    (s.cacheAfter c p).get? key = s.cache.get? key := by
  cases p <;> simp [Sys.cacheAfter, Ne.symm hk]

/-- A call for a settled key can only read `value` or return it. -/
theorem Settled.moves {s₀ s : Sys} {key value : String} (st : Settled s₀ key value s) {i : Nat}
    {c : Call} (hc : s.calls[i]? = some c) (hk : c.key = key) {p : Phase} (move : Moves s c p) :
    p = .hit value ∨ p = .returned value := by
  have call := st.calls i c hc hk
  have noMiss := call.noMiss
  cases move with
  | lookupHit _ _ hv => rw [hk, st.cached] at hv; exact .inl (by rw [Option.some.inj hv])
  | lookupMiss _ _ hv => rw [hk, st.cached] at hv; cases hv
  | releaseHit hp => exact .inr (by rw [call.hit _ hp])
  | _ => simp_all [Phase.afterMiss]

theorem settled_step {s₀ s s' : Sys} {a : Action} {key value : String}
    (st : Settled s₀ key value s) (h : step s a = some s') : Settled s₀ key value s' := by
  rcases step_cases h with ⟨command, trim, rfl⟩ | ⟨i, c, p, hc, move, rfl⟩
  · -- a new call starts settled
    refine ⟨st.cached, fun j c' hj hk => ?_⟩
    rw [getElem?_append_call] at hj
    split_ifs at hj
    · obtain rfl := Option.some.inj hj
      exact .called
    · exact st.calls j c' hj hk
  · -- a call for the key only reads or returns `value`; any other call leaves the key alone
    refine ⟨?_, fun j c' hj hk => ?_⟩
    · by_cases hk : c.key = key
      · rcases st.moves hc hk move with rfl | rfl <;> exact st.cached
      · exact (cacheAfter_get?_of_ne hk p).trans st.cached
    · rw [getElem?_set_of_some hc] at hj
      split_ifs at hj
      · obtain rfl := Option.some.inj hj
        exact .of_value (st.moves hc hk move)
      · exact st.calls j c' hj hk

theorem cached_value_stays {s₀ s : Sys} {actions : List Action} {key value : String}
    (reach : Reachable s₀) (cached : s₀.cache.get? key = some value)
    (settled : NoMissPending s₀ key) (ran : run s₀ actions = some s) :
    s.cache.get? key = some value ∧
      ∀ (i : Nat) (c : Call) (w : String), s.calls[i]? = some c → c.key = key →
        c.phase = .returned w → ¬ s₀.Returned i w → w = value := by
  have hits := reach.inv.2
  have start : Settled s₀ key value s₀ :=
    ⟨cached, fun i c hi hk => ⟨settled c (List.getElem?_mem hi) hk,
      fun w hw => by
        rw [← hk, hits i c w hi hw] at cached
        exact Option.some.inj cached,
      fun w hw => .inr ⟨c, hi, hw⟩⟩⟩
  have st := run_invariant (fun _ _ _ st h => settled_step st h) start ran
  exact ⟨st.cached, fun i c w hi hk hw fresh =>
    ((st.calls i c hi hk).returned w hw).resolve_right fresh⟩

theorem settled_value_read_by_later_call :
    Reachable ⟨.ofList [("git status", "v1")],
      [⟨⟨"git", ["status"], "/repo"⟩, true, .returned "v1"⟩]⟩ ∧
    (BTreeMap.ofList [("git status", "v1")]).get? "git status" = some "v1" ∧
    NoMissPending ⟨.ofList [("git status", "v1")],
      [⟨⟨"git", ["status"], "/repo"⟩, true, .returned "v1"⟩]⟩ "git status" ∧
    run ⟨.ofList [("git status", "v1")],
        [⟨⟨"git", ["status"], "/repo"⟩, true, .returned "v1"⟩]⟩
        [.call ⟨"git", ["status"], "/repo"⟩ true, .lookup 1, .release 1] =
      some ⟨.ofList [("git status", "v1")],
        [⟨⟨"git", ["status"], "/repo"⟩, true, .returned "v1"⟩,
          ⟨⟨"git", ["status"], "/repo"⟩, true, .returned "v1"⟩]⟩ ∧
    ((BTreeMap.ofList [("git status", "v1")]).get? "git status" = some "v1" ∧
      ∀ (i : Nat) (c : Call) (w : String),
        [(⟨⟨"git", ["status"], "/repo"⟩, true, .returned "v1"⟩ : Call),
          ⟨⟨"git", ["status"], "/repo"⟩, true, .returned "v1"⟩][i]? = some c →
        c.key = "git status" → c.phase = .returned w →
        ¬ Sys.Returned ⟨.ofList [("git status", "v1")],
          [⟨⟨"git", ["status"], "/repo"⟩, true, .returned "v1"⟩]⟩ i w → w = "v1") :=
  have reach : Reachable ⟨.ofList [("git status", "v1")],
      [⟨⟨"git", ["status"], "/repo"⟩, true, .returned "v1"⟩]⟩ :=
    ⟨.empty, [.call ⟨"git", ["status"], "/repo"⟩ true, .lookup 0, .release 0,
      .acquireWrite 0, .exec 0 (.ok "v1"), .insert 0, .release 0], rfl⟩
  have cached : (BTreeMap.ofList [("git status", "v1")]).get? "git status" =
      some "v1" := rfl
  have settled : NoMissPending ⟨.ofList [("git status", "v1")],
      [⟨⟨"git", ["status"], "/repo"⟩, true, .returned "v1"⟩]⟩ "git status" := by
    decide
  have ran : run ⟨.ofList [("git status", "v1")],
        [⟨⟨"git", ["status"], "/repo"⟩, true, .returned "v1"⟩]⟩
        [.call ⟨"git", ["status"], "/repo"⟩ true, .lookup 1, .release 1] =
      some ⟨.ofList [("git status", "v1")],
        [⟨⟨"git", ["status"], "/repo"⟩, true, .returned "v1"⟩,
          ⟨⟨"git", ["status"], "/repo"⟩, true, .returned "v1"⟩]⟩ := rfl
  ⟨reach, cached, settled, ran, cached_value_stays reach cached settled ran⟩

/-- The spec's reading of the cache between `s₁` and `s₂`: the calls for `key` that began after
`s₁` and have returned by `s₂` returned one value. -/
def LaterCallsAgree (s₁ s₂ : Sys) (key : String) : Prop :=
  ∀ (i j : Nat) (c d : Call) (w x : String), s₁.calls.length ≤ i → s₁.calls.length ≤ j →
    s₂.calls[i]? = some c → s₂.calls[j]? = some d → c.key = key → d.key = key →
    c.phase = .returned w → d.phase = .returned x → w = x

/-- Two calls miss; the first writes `v1` and returns; a third call reads `v1`; the second
writes `v2`; a fourth call reads `v2`. The third and the fourth began after the first returned,
and no guard is ever waited for. -/
theorem later_calls_disagree :
    ¬ ∀ (s₁ s₂ : Sys) (actions : List Action) (key : String), Reachable s₁ →
      (∃ (i : Nat) (c : Call) (w : String),
        s₁.calls[i]? = some c ∧ c.key = key ∧ c.phase = .returned w) →
      run s₁ actions = some s₂ → LaterCallsAgree s₁ s₂ key := by
  intro agree
  have reach : Reachable ⟨.ofList [("git status", "v1")],
      [⟨⟨"git", ["status"], "/repo"⟩, true, .returned "v1"⟩,
        ⟨⟨"git", ["status"], "/repo"⟩, true, .missed⟩]⟩ :=
    ⟨.empty, [.call ⟨"git", ["status"], "/repo"⟩ true, .call ⟨"git", ["status"], "/repo"⟩ true,
      .lookup 0, .release 0, .lookup 1, .release 1, .acquireWrite 0, .exec 0 (.ok "v1"), .insert 0,
      .release 0], rfl⟩
  have returned : ∃ (i : Nat) (c : Call) (w : String),
      [(⟨⟨"git", ["status"], "/repo"⟩, true, .returned "v1"⟩ : Call),
        ⟨⟨"git", ["status"], "/repo"⟩, true, .missed⟩][i]? = some c ∧
      c.key = "git status" ∧ c.phase = .returned w :=
    ⟨0, _, "v1", rfl, rfl, rfl⟩
  have ran : run ⟨.ofList [("git status", "v1")],
        [⟨⟨"git", ["status"], "/repo"⟩, true, .returned "v1"⟩,
          ⟨⟨"git", ["status"], "/repo"⟩, true, .missed⟩]⟩
        [.call ⟨"git", ["status"], "/repo"⟩ true, .lookup 2, .release 2, .acquireWrite 1,
          .exec 1 (.ok "v2"), .insert 1, .release 1, .call ⟨"git", ["status"], "/repo"⟩ true,
          .lookup 3, .release 3] =
      some ⟨.ofList [("git status", "v2")],
        [⟨⟨"git", ["status"], "/repo"⟩, true, .returned "v1"⟩,
          ⟨⟨"git", ["status"], "/repo"⟩, true, .returned "v2"⟩,
          ⟨⟨"git", ["status"], "/repo"⟩, true, .returned "v1"⟩,
          ⟨⟨"git", ["status"], "/repo"⟩, true, .returned "v2"⟩]⟩ := rfl
  have disagree := agree _ _ _ "git status" reach returned ran 2 3 _ _ "v1" "v2" (by decide)
    (by decide) rfl rfl rfl rfl rfl rfl
  exact absurd disagree (by decide)

/-! ## One call alone is `Git.runCommand` -/

section Solo

variable (command : Command) (trim : Bool) {calls : List Call}
  (idle : ∀ c ∈ calls, c.phase.holdsRead = false ∧ c.phase.holdsWrite = false)

/-- The state in which a new call is in phase `p` and every earlier call is as in `calls`. -/
def soloState (cache : BTreeMap) (calls : List Call) (p : Phase) : Sys :=
  ⟨cache, calls ++ [⟨command, trim, p⟩]⟩

include idle in
theorem soloState_writerHeld (cache : BTreeMap) (p : Phase) :
    (soloState command trim cache calls p).writerHeld = p.holdsWrite := by
  have : calls.any (·.phase.holdsWrite) = false :=
    List.any_eq_false.2 fun c hc => by simp [(idle c hc).2]
  simp [soloState, Sys.writerHeld, List.any_append, this]

include idle in
theorem soloState_readerHeld (cache : BTreeMap) (p : Phase) :
    (soloState command trim cache calls p).readerHeld = p.holdsRead := by
  have : calls.any (·.phase.holdsRead) = false :=
    List.any_eq_false.2 fun c hc => by simp [(idle c hc).1]
  simp [soloState, Sys.readerHeld, List.any_append, this]

theorem soloState_setPhase (cache : BTreeMap) (p q : Phase) :
    (soloState command trim cache calls p).setPhase calls.length ⟨command, trim, p⟩ q =
      soloState command trim cache calls q := by
  simp [soloState, Sys.setPhase]

theorem soloState_getElem? (cache : BTreeMap) (p : Phase) :
    (soloState command trim cache calls p).calls[calls.length]? = some ⟨command, trim, p⟩ :=
  List.getElem?_concat_length _ _

theorem step_call (s : Sys) :
    step s (.call command trim) = some (soloState command trim s.cache s.calls .called) := rfl

include idle in
theorem soloState_lookup (cache : BTreeMap) :
    step (soloState command trim cache calls .called) (.lookup calls.length) =
      some (soloState command trim cache calls (match cache.get? command.getCommandLine with
        | some value => .hit value
        | none => .miss)) := by
  simp [step, soloState_getElem?, soloState_writerHeld command trim idle, Phase.holdsWrite,
    soloState_setPhase, Call.key]
  rfl

theorem soloState_release (cache : BTreeMap) (p : Phase) :
    step (soloState command trim cache calls p) (.release calls.length) =
      match p with
      | .hit value | .inserted value => some (soloState command trim cache calls (.returned value))
      | .miss => some (soloState command trim cache calls .missed)
      | .failed e => some (soloState command trim cache calls (.errored e))
      | _ => none := by
  cases p <;> simp [step, soloState_getElem?, soloState_setPhase]

include idle in
theorem soloState_acquireWrite (cache : BTreeMap) :
    step (soloState command trim cache calls .missed) (.acquireWrite calls.length) =
      some (soloState command trim cache calls .writing) := by
  simp [step, soloState_getElem?, soloState_writerHeld command trim idle,
    soloState_readerHeld command trim idle, soloState_setPhase, Phase.holdsRead, Phase.holdsWrite]

theorem soloState_exec (cache : BTreeMap) (output : Except VcsError String) :
    step (soloState command trim cache calls .writing) (.exec calls.length output) =
      some (soloState command trim cache calls (match output with
        | .ok stdout => .executed (Git.outputValue trim stdout)
        | .error e => .failed e)) := by
  simp [step, soloState_getElem?, soloState_setPhase]

theorem soloState_insert (cache : BTreeMap) (value : String) :
    step (soloState command trim cache calls (.executed value)) (.insert calls.length) =
      some (soloState command trim (cache.insert command.getCommandLine value) calls
        (.inserted value)) := by
  simp [step, soloState_getElem?, soloState_setPhase, Call.key]
  rfl

end Solo

/-- A call that runs alone does what the sequential `Git.runCommand` does: from a state in which
no call holds a guard, the steps of one new call leave `runCommand`'s cache and return its
result. -/
theorem runCommand_solo_run (git : Git) (exec : Command → Except VcsError String)
    (command : Command) (trim : Bool) (calls : List Call)
    (idle : ∀ c ∈ calls, c.phase.holdsRead = false ∧ c.phase.holdsWrite = false) :
    ∃ actions, run ⟨git.cache, calls⟩ actions =
      some ⟨(git.runCommand exec command trim).2.cache,
        calls ++ [⟨command, trim, .ofResult (git.runCommand exec command trim).1⟩]⟩ := by
  cases cached : git.cache.get? command.getCommandLine with
  | some value =>
    refine ⟨[.call command trim, .lookup calls.length, .release calls.length], ?_⟩
    simp only [run, step_call, Option.some_bind, soloState_lookup command trim idle, cached,
      soloState_release, Git.runCommand_of_cached _ _ _ _ cached]
    rfl
  | none =>
    have miss : step (soloState command trim git.cache calls .called) (.lookup calls.length) =
        some (soloState command trim git.cache calls .miss) := by
      rw [soloState_lookup command trim idle, cached]
    cases ran : exec command with
    | error e =>
      refine ⟨[.call command trim, .lookup calls.length, .release calls.length,
        .acquireWrite calls.length, .exec calls.length (.error e), .release calls.length], ?_⟩
      simp only [run, step_call, Option.some_bind, miss, soloState_release,
        soloState_acquireWrite command trim idle, soloState_exec, Git.runCommand, cached, ran]
      rfl
    | ok stdout =>
      refine ⟨[.call command trim, .lookup calls.length, .release calls.length,
        .acquireWrite calls.length, .exec calls.length (.ok stdout), .insert calls.length,
        .release calls.length], ?_⟩
      simp only [run, step_call, Option.some_bind, miss, soloState_release,
        soloState_acquireWrite command trim idle, soloState_exec, soloState_insert, Git.runCommand,
        cached, ran]
      rfl

/-! ## Calls one after another -/

/-- Requests served one after another by the sequential `Git.runCommand`: the result of each, in
order, and the final `Git`. -/
def runSequentially (git : Git) (exec : Command → Except VcsError String) :
    List (Command × Bool) → List (Except VcsError String) × Git
  | [] => ([], git)
  | (command, trim) :: rest =>
    let first := git.runCommand exec command trim
    let later := runSequentially first.2 exec rest
    (first.1 :: later.1, later.2)

/-- The calls that served `requests`, each finished with its result. -/
def finishedCalls (requests : List (Command × Bool)) (results : List (Except VcsError String)) :
    List Call :=
  List.zipWith (fun request result => ⟨request.1, request.2, .ofResult result⟩) requests results

theorem run_append (s : Sys) (first later : List Action) :
    run s (first ++ later) = (run s first).bind fun t => run t later := by
  induction first generalizing s with
  | nil => rfl
  | cons a rest ih => simp only [List.cons_append, run, Option.bind_assoc, List.append_eq, ih]

theorem ofResult_idle (result : Except VcsError String) :
    (Phase.ofResult result).holdsRead = false ∧ (Phase.ofResult result).holdsWrite = false := by
  cases result <;> exact ⟨rfl, rfl⟩

/-- Serving requests one after another is a run of the concurrent model: from a state in which no
call holds a guard, the calls' steps in sequence leave the cache the sequential `Git.runCommand`
leaves, and each call returns what it returns. -/
theorem runSequentially_refines (git : Git) (exec : Command → Except VcsError String)
    (requests : List (Command × Bool)) (calls : List Call)
    (idle : ∀ c ∈ calls, c.phase.holdsRead = false ∧ c.phase.holdsWrite = false) :
    ∃ actions, run ⟨git.cache, calls⟩ actions =
      some ⟨(runSequentially git exec requests).2.cache,
        calls ++ finishedCalls requests (runSequentially git exec requests).1⟩ := by
  induction requests generalizing git calls with
  | nil => exact ⟨[], by simp [run, finishedCalls, runSequentially]⟩
  | cons request rest ih =>
    obtain ⟨command, trim⟩ := request
    obtain ⟨first, ranFirst⟩ := runCommand_solo_run git exec command trim calls idle
    have idle' : ∀ c ∈ calls ++ [⟨command, trim, .ofResult (git.runCommand exec command trim).1⟩],
        c.phase.holdsRead = false ∧ c.phase.holdsWrite = false := fun c hc =>
      (List.mem_append.1 hc).elim (idle c) fun hc => List.mem_singleton.1 hc ▸ ofResult_idle _
    obtain ⟨later, ranLater⟩ := ih (git.runCommand exec command trim).2 _ idle'
    refine ⟨first ++ later, ?_⟩
    rw [run_append, ranFirst, Option.some_bind, ranLater]
    simp [runSequentially, finishedCalls]

theorem branch_twice_after_finished_call :
    (∀ c ∈ [(⟨⟨"git", ["status"], "/repo"⟩, true, .returned "v1"⟩ : Call)],
      c.phase.holdsRead = false ∧ c.phase.holdsWrite = false) ∧
    ∃ actions, run ⟨(⟨.empty, "master", none, "/repo"⟩ : Git).cache,
        [⟨⟨"git", ["status"], "/repo"⟩, true, .returned "v1"⟩]⟩ actions =
      some ⟨(runSequentially ⟨.empty, "master", none, "/repo"⟩ (fun _ => .ok "main\n")
          [(⟨"git", ["branch"], "/repo"⟩, true), (⟨"git", ["branch"], "/repo"⟩, false)]).2.cache,
        [⟨⟨"git", ["status"], "/repo"⟩, true, .returned "v1"⟩] ++
          finishedCalls
            [(⟨"git", ["branch"], "/repo"⟩, true), (⟨"git", ["branch"], "/repo"⟩, false)]
            (runSequentially ⟨.empty, "master", none, "/repo"⟩ (fun _ => .ok "main\n")
              [(⟨"git", ["branch"], "/repo"⟩, true), (⟨"git", ["branch"], "/repo"⟩, false)]).1⟩ :=
  have idle : ∀ c ∈ [(⟨⟨"git", ["status"], "/repo"⟩, true, .returned "v1"⟩ : Call)],
      c.phase.holdsRead = false ∧ c.phase.holdsWrite = false := by decide
  ⟨idle, runSequentially_refines ⟨.empty, "master", none, "/repo"⟩ (fun _ => .ok "main\n")
    [(⟨"git", ["branch"], "/repo"⟩, true), (⟨"git", ["branch"], "/repo"⟩, false)] _ idle⟩

end Moon.Vcs.CommandCache
