import Moon.Vcs.CommandCache

/-! # Every call of `run_command` can finish

The lock of the command cache cannot deadlock the calls on one `Git`, and no call runs forever,
by a termination argument in two parts. A measure: each phase has a number of steps left
(`Phase.stepsLeft`) and every move of a call lowers it (`Moves.stepsLeft_lt`), so no run of the
calls in flight is longer than the sum (`run_length_le`). Progress: in every state with an
unfinished call some call can move, whatever the subprocess answers (`progress`): a writer moves
on, else a reader drops its guard, else nobody holds the lock and a call takes the write guard or
looks its command line up. Together (`calls_finish`): from every state the calls in flight all
return or fail, within that many steps.
-/

namespace Moon.Vcs.CommandCache

/-- How many steps a call in this phase has left at most. -/
def Phase.stepsLeft : Phase → Nat
  | .called => 6
  | .miss => 5
  | .missed => 4
  | .writing => 3
  | .executed _ => 2
  | .hit _ | .failed _ | .inserted _ => 1
  | .returned _ | .errored _ => 0

/-- How many steps the calls of a state have left at most. -/
def Sys.stepsLeft (s : Sys) : Nat := s.calls.foldr (fun c n => c.phase.stepsLeft + n) 0

/-- Whether an action starts a new call. -/
def Action.isCall : Action → Bool
  | .call _ _ => true
  | _ => false

/-- An action that runs a subprocess takes the oracle's answer for the command of its call. -/
def Answers (exec : Command → Except VcsError String) (s : Sys) (a : Action) : Prop :=
  ∀ i output, a = .exec i output → ∃ c, s.calls[i]? = some c ∧ output = exec c.command

theorem Phase.stepsLeft_eq_zero {p : Phase} : p.stepsLeft = 0 ↔ ∃ r, p = .ofResult r := by
  constructor
  · cases p <;> simp [Phase.stepsLeft]
    exacts [⟨.ok _, rfl⟩, ⟨.error _, rfl⟩]
  · rintro ⟨r | r, rfl⟩ <;> rfl

/-! ## The measure -/

/-- No steps are left exactly when every call has returned or failed. -/
theorem Sys.stepsLeft_eq_zero {s : Sys} :
    s.stepsLeft = 0 ↔ ∀ c ∈ s.calls, ∃ r, c.phase = .ofResult r := by
  obtain ⟨cache, calls⟩ := s
  simp only [Sys.stepsLeft]
  induction calls with
  | nil => simp
  | cons d ds ih => simp [List.foldr_cons, ih, Phase.stepsLeft_eq_zero]

theorem Moves.stepsLeft_lt {s : Sys} {c : Call} {p : Phase} (move : Moves s c p) :
    p.stepsLeft < c.phase.stepsLeft := by
  cases move <;> simp_all [Phase.stepsLeft]

theorem stepsLeft_set {calls : List Call} {i : Nat} {c : Call} (hc : calls[i]? = some c)
    (c' : Call) :
    (calls.set i c').foldr (fun c n => c.phase.stepsLeft + n) 0 + c.phase.stepsLeft =
      calls.foldr (fun c n => c.phase.stepsLeft + n) 0 + c'.phase.stepsLeft := by
  induction calls generalizing i with
  | nil => cases hc
  | cons d ds ih =>
    cases i with
    | zero =>
      obtain rfl := Option.some.inj (List.getElem?_cons_zero ▸ hc)
      simp only [List.set_cons_zero, List.foldr_cons]
      omega
    | succ i =>
      have := ih (List.getElem?_cons_succ ▸ hc)
      simp only [List.set_cons_succ, List.foldr_cons]
      omega

/-- Only a call action adds a call. -/
theorem calls_length_step {s s' : Sys} {a : Action} (h : step s a = some s')
    (notCall : a.isCall = false) : s'.calls.length = s.calls.length := by
  cases a with
  | call => cases notCall
  | _ =>
    obtain ⟨c, -, h⟩ := Option.bind_eq_some.1 h
    split at h <;> simp only [Option.some.injEq, reduceCtorEq] at h <;> subst h <;>
      simp [Sys.setPhase]

/-- A step that starts no call lowers the steps left; it keeps the calls and their commands. -/
theorem step_of_not_isCall {s s' : Sys} {a : Action} (h : step s a = some s')
    (notCall : a.isCall = false) :
    s'.stepsLeft < s.stepsLeft ∧ s'.calls.length = s.calls.length ∧
      ∀ (i : Nat) (c' : Call), s'.calls[i]? = some c' →
        ∃ c, s.calls[i]? = some c ∧ c.command = c'.command := by
  have length := calls_length_step h notCall
  rcases step_cases h with ⟨command, trim, rfl⟩ | ⟨i, c, p, hc, move, rfl⟩
  · simp at length
  · refine ⟨?_, List.length_set _ _ _, fun j c' hj => ?_⟩
    · have := stepsLeft_set hc { c with phase := p }
      have := move.stepsLeft_lt
      simp only [Sys.stepsLeft] at *
      omega
    · rw [getElem?_set_of_some hc] at hj
      split_ifs at hj with hij
      · exact ⟨c, hij ▸ hc, by rw [← Option.some.inj hj]⟩
      · exact ⟨c', hj, rfl⟩

theorem run_length_le {s s' : Sys} {actions : List Action} (ran : run s actions = some s')
    (notCall : ∀ a ∈ actions, a.isCall = false) : actions.length ≤ s.stepsLeft := by
  induction actions generalizing s with
  | nil => exact Nat.zero_le _
  | cons a rest ih =>
    obtain ⟨t, ht, ran⟩ := Option.bind_eq_some.1 ran
    have lower := (step_of_not_isCall ht (notCall a (.head _))).1
    have := ih ran fun b hb => notCall b (.tail _ hb)
    simp only [List.length_cons]
    omega

/-! ## Progress -/

theorem exists_of_any {s : Sys} {f : Call → Bool} (h : s.calls.any f = true) :
    ∃ (i : Nat) (c : Call), s.calls[i]? = some c ∧ f c = true := by
  obtain ⟨c, hc, hf⟩ := List.any_eq_true.1 h
  obtain ⟨i, hi⟩ := List.getElem?_of_mem hc
  exact ⟨i, c, hi, hf⟩

/-- In a state with an unfinished call, some call can take a step, with the oracle's answer if
it runs its command. -/
theorem progress (exec : Command → Except VcsError String) {s : Sys} (pending : s.stepsLeft ≠ 0) :
    ∃ a s', step s a = some s' ∧ a.isCall = false ∧ Answers exec s a := by
  have enabled : ∀ {a}, a.isCall = false → Answers exec s a → (step s a).isSome →
      ∃ a s', step s a = some s' ∧ a.isCall = false ∧ Answers exec s a := fun notCall answers h =>
    let ⟨s', hs'⟩ := Option.isSome_iff_exists.1 h
    ⟨_, s', hs', notCall, answers⟩
  cases writer : s.writerHeld
  · cases reader : s.readerHeld
    · -- nobody holds the lock: a call that missed takes the write guard, a new one looks up
      obtain ⟨c, hc, left⟩ : ∃ c ∈ s.calls, c.phase.stepsLeft ≠ 0 := by
        by_contra none
        push_neg at none
        exact pending (Sys.stepsLeft_eq_zero.2 fun c hc => Phase.stepsLeft_eq_zero.1 (none c hc))
      obtain ⟨i, hi⟩ := List.getElem?_of_mem hc
      have held := Sys.holdsWrite_eq_false writer hi
      have read := Sys.holdsRead_eq_false reader hi
      cases hp : c.phase <;> simp only [hp, Phase.holdsRead, Phase.holdsWrite, Phase.stepsLeft,
        Bool.true_eq_false, ne_eq, not_true_eq_false] at held read left
      · exact enabled (a := .lookup i) rfl (fun _ _ => nofun) (by simp [step, hi, hp, writer])
      · exact enabled (a := .acquireWrite i) rfl (fun _ _ => nofun)
          (by simp [step, hi, hp, writer, reader])
    · -- a reader drops its guard
      obtain ⟨i, c, hi, hr⟩ := exists_of_any reader
      cases hp : c.phase <;> simp only [hp, Phase.holdsRead, reduceCtorEq] at hr
      all_goals exact enabled (a := .release i) rfl (fun _ _ => nofun) (by simp [step, hi, hp])
  · -- the writer moves on
    obtain ⟨i, c, hi, hw⟩ := exists_of_any writer
    cases hp : c.phase <;> simp only [hp, Phase.holdsWrite, reduceCtorEq] at hw
    · exact enabled (a := .exec i (exec c.command)) rfl
        (fun _ _ same => by cases same; exact ⟨c, hi, rfl⟩) (by simp [step, hi, hp])
    · exact enabled (a := .insert i) rfl (fun _ _ => nofun) (by simp [step, hi, hp])
    all_goals exact enabled (a := .release i) rfl (fun _ _ => nofun) (by simp [step, hi, hp])

/-! ## Every call finishes -/

theorem calls_finish (exec : Command → Except VcsError String) (s : Sys) :
    (∃ actions s', run s actions = some s' ∧ actions.length ≤ s.stepsLeft ∧
      s'.calls.length = s.calls.length ∧ (∀ c ∈ s'.calls, ∃ r, c.phase = .ofResult r) ∧
      ∀ i output, .exec i output ∈ actions → ∃ c, s.calls[i]? = some c ∧ output = exec c.command) ∧
    ∀ actions s', run s actions = some s' → (∀ a ∈ actions, a.isCall = false) →
      actions.length ≤ s.stepsLeft := by
  refine ⟨?_, fun _ _ ran notCall => run_length_le ran notCall⟩
  suffices finish : ∀ n (s : Sys), s.stepsLeft = n → ∃ actions s', run s actions = some s' ∧
      actions.length ≤ s.stepsLeft ∧ s'.calls.length = s.calls.length ∧
      (∀ c ∈ s'.calls, ∃ r, c.phase = .ofResult r) ∧
      ∀ i output, .exec i output ∈ actions → ∃ c, s.calls[i]? = some c ∧ output = exec c.command
    from finish _ s rfl
  intro n
  induction n using Nat.strong_induction_on with
  | _ n ih =>
    intro s h
    by_cases done : s.stepsLeft = 0
    · exact ⟨[], s, rfl, Nat.zero_le _, rfl, Sys.stepsLeft_eq_zero.1 done, nofun⟩
    · obtain ⟨a, t, ht, notCall, answers⟩ := progress exec done
      obtain ⟨lower, length, commands⟩ := step_of_not_isCall ht notCall
      obtain ⟨rest, s', ran, bound, length', finished, oracle⟩ := ih _ (h ▸ lower) t rfl
      refine ⟨a :: rest, s', by simp [run, ht, ran], by simp only [List.length_cons]; omega,
        length'.trans length, finished, fun i output hmem => ?_⟩
      rcases List.mem_cons.1 hmem with same | hmem
      · exact answers i output same.symm
      · obtain ⟨c', hc', rfl⟩ := oracle i output hmem
        obtain ⟨c, hc, command⟩ := commands i c' hc'
        exact ⟨c, hc, command ▸ rfl⟩

end Moon.Vcs.CommandCache
