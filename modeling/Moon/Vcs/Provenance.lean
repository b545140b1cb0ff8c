import Moon.Vcs.CommandCache

/-! # Where a returned value comes from

Whatever the interleaving of the calls on one `Git` and whatever the subprocess prints, a call
returns what the cache held for its command line when the calls began, or what a subprocess run
in that interleaving printed for a call with the same command line, read as the running call asks
(`returned_value_origin`). The trim flag read is the running call's, which need not be the
returning call's: the cache key ignores it.

The invariant (`Sound`) gives an origin to every value the cache holds and to every value a call
holds to insert, has read or returns; `sound_step` keeps it with one case per action.
-/

namespace Moon.Vcs.CommandCache

/-- The result a call has taken: at a hit, at an insert, at a failed run, kept to its return. -/
def Phase.result : Phase → Option (Except VcsError String)
  | .hit value | .inserted value | .returned value => some (.ok value)
  | .failed e | .errored e => some (.error e)
  | _ => none

/-- `value` is what the cache held for `key` at the start, or what a subprocess printed in one of
the steps `done` for a call of `s` with that command line, read as that call asks. -/
def Origin (cache₀ : BTreeMap) (done : List Action) (s : Sys) (key value : String) : Prop :=
  cache₀.get? key = some value ∨
    ∃ j d stdout, s.calls[j]? = some d ∧ d.key = key ∧ Action.exec j (.ok stdout) ∈ done ∧
      value = Git.outputValue d.trim stdout

/-- Every value the cache holds, and every value a call holds to insert, has read or returns, has
an origin. -/
structure Sound (cache₀ : BTreeMap) (done : List Action) (s : Sys) : Prop where
  cached : ∀ key value, s.cache.get? key = some value → Origin cache₀ done s key value
  held : ∀ c ∈ s.calls, ∀ value, c.phase.result = some (.ok value) ∨ c.phase = .executed value →
    Origin cache₀ done s c.key value

/-- An origin stays one: a step keeps every call's command and trim, and only adds to the steps
taken. -/
theorem Origin.step {cache₀ : BTreeMap} {done : List Action} {s s' : Sys} {a : Action}
    {key value : String} (o : Origin cache₀ done s key value) (h : step s a = some s') :
    Origin cache₀ (done ++ [a]) s' key value := by
  rcases o with initial | ⟨j, d, stdout, hd, hk, mem, hv⟩
  · exact .inl initial
  refine .inr ?_
  rcases step_cases h with ⟨command, trim, rfl⟩ | ⟨i, c, p, hc, move, rfl⟩
  · have ne : j ≠ s.calls.length := fun same => by
      rw [same, List.getElem?_eq_none (le_refl _)] at hd
      cases hd
    exact ⟨j, d, stdout, by rw [getElem?_append_call, if_neg ne, hd], hk,
      List.mem_append_left _ mem, hv⟩
  · by_cases hij : i = j
    · subst hij
      obtain rfl : c = d := Option.some.inj (hc.symm.trans hd)
      exact ⟨i, { c with phase := p }, stdout, by rw [getElem?_set_of_some hc, if_pos rfl], hk,
        List.mem_append_left _ mem, hv⟩
    · exact ⟨j, d, stdout, by rw [getElem?_set_of_some hc, if_neg hij, hd], hk,
        List.mem_append_left _ mem, hv⟩

/-- A step that moves one call keeps the invariant if what it writes to the cache, and what the
moved call holds afterwards, have an origin. -/
theorem Sound.moved {cache₀ : BTreeMap} {done : List Action} {s s' : Sys} {a : Action}
    (sound : Sound cache₀ done s) (h : step s a = some s') {i : Nat} {c : Call} {p : Phase}
    {cache : BTreeMap} (hc : s.calls[i]? = some c)
    (eq : s' = ⟨cache, s.calls.set i { c with phase := p }⟩)
    (cached : ∀ key value, cache.get? key = some value →
      Origin cache₀ (done ++ [a]) s' key value)
    (moved : ∀ value, p.result = some (.ok value) ∨ p = .executed value →
      Origin cache₀ (done ++ [a]) s' c.key value) :
    Sound cache₀ (done ++ [a]) s' := by
  subst eq
  refine ⟨cached, fun d hd value hv => ?_⟩
  obtain ⟨j, hj⟩ := List.getElem?_of_mem hd
  rw [getElem?_set_of_some hc] at hj
  split_ifs at hj
  · obtain rfl := Option.some.inj hj
    exact moved value hv
  · exact (sound.held d (List.getElem?_mem hj) value hv).step h

theorem sound_step {cache₀ : BTreeMap} {done : List Action} {s s' : Sys} {a : Action}
    (sound : Sound cache₀ done s) (h : step s a = some s') : Sound cache₀ (done ++ [a]) s' := by
  have old : ∀ key value, s.cache.get? key = some value →
      Origin cache₀ (done ++ [a]) s' key value := fun key value hv =>
    (sound.cached key value hv).step h
  have noValue : ∀ {key : String} (p : Phase), p.result = none → (∀ v, p ≠ .executed v) →
      ∀ value, p.result = some (.ok value) ∨ p = .executed value →
        Origin cache₀ (done ++ [a]) s' key value := fun _ hr hx value hv => by
    rcases hv with hv | hv
    · rw [hr] at hv
      cases hv
    · exact absurd hv (hx value)
  have kept : ∀ {c : Call} {p : Phase}, c ∈ s.calls → p.result = c.phase.result →
      (∀ v, p ≠ .executed v) → ∀ value, p.result = some (.ok value) ∨ p = .executed value →
        Origin cache₀ (done ++ [a]) s' c.key value := fun hc same hx value hv =>
    (sound.held _ hc value (.inl (same ▸ hv.resolve_right (hx value)))).step h
  cases a with
  | call command trim =>
    obtain rfl := (Option.some.inj h).symm
    refine ⟨old, fun d hd value hv => ?_⟩
    rcases List.mem_append.1 hd with hd | hd
    · exact (sound.held d hd value hv).step h
    · rw [List.mem_singleton.1 hd] at hv ⊢
      exact noValue .called rfl (fun _ => nofun) value hv
  | lookup i =>
    obtain ⟨c, hc, h'⟩ := Option.bind_eq_some.1 h
    split_ifs at h' with guard
    refine sound.moved h hc (Option.some.inj h').symm old fun value hv => ?_
    cases cached : s.cache.get? c.key with
    | none =>
      simp only [cached] at hv
      exact noValue .miss rfl (fun _ => nofun) value hv
    | some w =>
      simp only [cached, Phase.result, Option.some.injEq, Except.ok.injEq, reduceCtorEq,
        or_false] at hv
      exact hv ▸ old _ _ cached
  | release i =>
    obtain ⟨c, hc, h'⟩ := Option.bind_eq_some.1 h
    cases hp : c.phase <;> simp only [hp, Option.some.injEq, reduceCtorEq] at h'
    all_goals
      exact sound.moved h hc h'.symm old
        (kept (List.getElem?_mem hc) (by simp [hp, Phase.result]) (fun _ => nofun))
  | acquireWrite i =>
    obtain ⟨c, hc, h'⟩ := Option.bind_eq_some.1 h
    split_ifs at h'
    exact sound.moved h hc (Option.some.inj h').symm old (noValue .writing rfl (fun _ => nofun))
  | exec i output =>
    obtain ⟨c, hc, h'⟩ := Option.bind_eq_some.1 h
    split_ifs at h'
    refine sound.moved h hc (Option.some.inj h').symm old ?_
    cases output with
    | error e => rintro value (hv | hv) <;> cases hv
    | ok stdout =>
      rintro value (hv | hv)
      · cases hv
      · obtain rfl := (Phase.executed.inj hv).symm
        refine .inr ⟨i, { c with phase := .executed (Git.outputValue c.trim stdout) }, stdout,
          ?_, rfl, List.mem_append_right _ (.head _), rfl⟩
        rw [← Option.some.inj h', Sys.setPhase, getElem?_set_of_some hc, if_pos rfl]
  | insert i =>
    obtain ⟨c, hc, h'⟩ := Option.bind_eq_some.1 h
    cases hp : c.phase <;> simp only [hp, Option.some.injEq, reduceCtorEq] at h'
    next w =>
    have stored : Origin cache₀ (done ++ [.insert i]) s' c.key w :=
      (sound.held c (List.getElem?_mem hc) w (.inr hp)).step h
    refine sound.moved h hc h'.symm (fun key value hv => ?_) fun value hv => ?_
    · rw [BTreeMap.get?_insert] at hv
      split_ifs at hv with hk
      · obtain rfl := Option.some.inj hv
        exact hk ▸ stored
      · exact old key value hv
    · simp only [Phase.result, Option.some.injEq, Except.ok.injEq, reduceCtorEq, or_false] at hv
      exact hv ▸ stored

theorem sound_run {cache₀ : BTreeMap} {done : List Action} {s s' : Sys}
    {actions : List Action} (sound : Sound cache₀ done s) (ran : run s actions = some s') :
    Sound cache₀ (done ++ actions) s' := by
  induction actions generalizing s done with
  | nil => cases ran; simpa using sound
  | cons a rest ih =>
    obtain ⟨t, ht, ran⟩ := Option.bind_eq_some.1 ran
    simpa using ih (sound_step sound ht) ran

theorem returned_value_origin (cache : BTreeMap) (actions : List Action) {s : Sys}
    (ran : run ⟨cache, []⟩ actions = some s) {i : Nat} {c : Call} {value : String}
    (hc : s.calls[i]? = some c) (returned : c.phase = .returned value) :
    cache.get? c.key = some value ∨
      ∃ j d stdout, s.calls[j]? = some d ∧ d.key = c.key ∧ Action.exec j (.ok stdout) ∈ actions ∧
        value = Git.outputValue d.trim stdout := by
  have start : Sound cache [] ⟨cache, []⟩ :=
    ⟨fun _ _ hv => .inl hv, fun c hc => absurd hc (List.not_mem_nil c)⟩
  exact (sound_run start ran).held c (List.getElem?_mem hc) value (.inl (by rw [returned]; rfl))

/-- A branch looked up on an empty cache is returned as the subprocess printed it, trimmed. -/
theorem branch_returned_from_exec :
    run ⟨.empty, []⟩ [.call ⟨"git", ["branch", "--show-current"], "/repo"⟩ true, .lookup 0,
        .release 0, .acquireWrite 0, .exec 0 (.ok "main\n"), .insert 0, .release 0] =
      some ⟨.ofList [("git branch --show-current", "main")],
        [⟨⟨"git", ["branch", "--show-current"], "/repo"⟩, true, .returned "main"⟩]⟩ ∧
    (BTreeMap.empty.get? (Call.key ⟨⟨"git", ["branch", "--show-current"], "/repo"⟩, true,
        .returned "main"⟩) = some "main" ∨
      ∃ j d stdout, (Sys.calls ⟨.ofList [("git branch --show-current", "main")],
          [⟨⟨"git", ["branch", "--show-current"], "/repo"⟩, true, .returned "main"⟩]⟩)[j]? =
          some d ∧
        d.key = Call.key ⟨⟨"git", ["branch", "--show-current"], "/repo"⟩, true,
          .returned "main"⟩ ∧
        Action.exec j (.ok stdout) ∈ [.call ⟨"git", ["branch", "--show-current"], "/repo"⟩ true,
          .lookup 0, .release 0, .acquireWrite 0, .exec 0 (.ok "main\n"), .insert 0, .release 0] ∧
        "main" = Git.outputValue d.trim stdout) :=
  have ran : run ⟨.empty, []⟩ [.call ⟨"git", ["branch", "--show-current"], "/repo"⟩ true,
      .lookup 0, .release 0, .acquireWrite 0, .exec 0 (.ok "main\n"), .insert 0, .release 0] =
      some ⟨.ofList [("git branch --show-current", "main")],
        [⟨⟨"git", ["branch", "--show-current"], "/repo"⟩, true, .returned "main"⟩]⟩ := rfl
  ⟨ran, returned_value_origin _ _ ran (i := 0) rfl rfl⟩

end Moon.Vcs.CommandCache
