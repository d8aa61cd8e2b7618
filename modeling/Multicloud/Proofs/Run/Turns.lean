import Multicloud.Proofs.Run.Call

namespace Multicloud

namespace RunCache

variable {c : RunCache}

theorem run_get_of_dir_eq_none (hd : c.dir = none) (key : String) (root : Tree) :
    (c.get key).run root = ((c.entries[key]?, c), root) := by
  rw [run_get, hd]
  cases c.entries[key]? <;> rfl

theorem run_put_of_dir_eq_none (hd : c.dir = none) (key : String) (run : StoredRun) (root : Tree) :
    (c.put key run).run root = ({ c with entries := c.entries.insert key run }, root) := by
  rw [run_put, hd]

end RunCache

namespace Pipeline

/-- A call, what it answered, and the cache before and after it. -/
structure Turn where
  call : Call
  before : RunCache
  answer : Except SynthesisError Outcome
  after : RunCache

def turns (p : Pipeline) : RunCache → List Call → Script (List Turn × RunCache)
  | c, [] => return ([], c)
  | c, x :: rest => do
    let (answer, c') ← p.call c x
    let (ts, last) ← p.turns c' rest
    return (⟨x, c, answer, c'⟩ :: ts, last)

variable {p : Pipeline} {c c' : RunCache} {x : Call} {root : Tree}
  {answer : Except SynthesisError Outcome} {o : Outcome}

theorem Came.of_dir_eq_none (hd : c.dir = none) {root' : Tree}
    (h : Came p x c root answer c' root') : c'.dir = none ∧ root' = root := by
  cases h with
  | refused ht => exact ⟨hd, rfl⟩
  | dropped hplan hc => exact ⟨hd, rfl⟩
  | reused hplan hu he hc hget =>
    rw [RunCache.run_get_of_dir_eq_none hd] at hget
    obtain ⟨-, rfl⟩ := Prod.mk.inj (Prod.mk.inj hget).1
    exact ⟨hd, rfl⟩
  | kept hplan hw hc hput =>
    rw [RunCache.run_put_of_dir_eq_none hd] at hput
    cases hput
    exact ⟨hd, rfl⟩

/-- The call was a full run that was neither cancelled nor failed, and this of it was kept. -/
structure Turn.Stores (p : Pipeline) (t : Turn) (key : String) (run : StoredRun) : Prop where
  exists_outcome : ∃ o, t.answer = .ok o ∧ o.mode = .full ∧ o.failures = ∅ ∧ o.cancelled = [] ∧
    o.graphHash = t.call.graph.hash p.digest ∧ key = o.binding.key p.digest o.graphHash ∧
    run.artifacts = o.artifacts ∧ run.composition = o.composition ∧
    ∀ target, target ∈ run.artifacts ↔ target ∈ o.binding
  after : t.after = { t.before with entries := t.before.entries.insert key run }

structure Turn.Sound (p : Pipeline) (t : Turn) : Prop where
  unchanged : (t.answer = .error .noTargets ∨
      ∃ o, t.answer = .ok o ∧ (o.failures ≠ ∅ ∨ o.cancelled ≠ [])) → t.after = t.before
  incremental : ∀ o, t.answer = .ok o → o.mode = .incremental →
    (∀ target ∈ t.call.targets, ∃ v, p.bind target = .ok v ∧ o.binding[target]? = some v) ∧
    (∃ e, t.call.previous = some e ∧ e.covers (t.call.graph.hash p.digest) o.binding = true) ∧
    o.graphHash = t.call.graph.hash p.digest ∧
    o.binding.key p.digest o.graphHash ∈ t.before.entries

theorem Came.sound (hd : c.dir = none) {root' : Tree} (h : Came p x c root answer c' root') :
    Turn.Sound p ⟨x, c, answer, c'⟩ := by
  cases h with
  | refused ht => exact ⟨fun _ ↦ rfl, fun o ho ↦ by cases ho⟩
  | @reused plan e run c' hplan hu he hc hget =>
    rw [RunCache.run_get_of_dir_eq_none hd] at hget
    obtain ⟨hrun, rfl⟩ := Prod.mk.inj (Prod.mk.inj hget).1
    refine ⟨fun _ ↦ rfl, fun o ho _ ↦ ?_⟩
    obtain rfl := Except.ok.inj ho
    have hkey : plan.binding.key p.digest plan.graphHash ∈ c.entries := by
      rw [Std.ExtTreeMap.mem_iff_isSome_getElem?, hrun]
      rfl
    refine ⟨fun t ht ↦ ?_, ⟨e, he, hplan.graphHash ▸ hc⟩, hplan.graphHash, hkey⟩
    obtain ⟨v, hv⟩ := hplan.unbound_eq_empty_iff.1 hu t ht
    exact ⟨v, hv, hplan.getElem?_binding.2 ⟨ht, hv⟩⟩
  | @kept plan runs c' root' hplan hw hc hput =>
    refine ⟨fun h ↦ ?_, fun o ho hm ↦ ?_⟩
    · obtain ⟨hfailures, hcancelled⟩ := Outcome.isComplete_iff.1 hc
      rcases h with h | ⟨o, ho, hne⟩
      · cases h
      · obtain rfl := Except.ok.inj ho
        rcases hne with hne | hne
        · exact absurd hfailures hne
        · exact absurd hcancelled hne
    · obtain rfl := Except.ok.inj ho
      cases hm
  | dropped hplan hc =>
    refine ⟨fun _ ↦ rfl, fun o ho hm ↦ ?_⟩
    obtain rfl := Except.ok.inj ho
    cases hm

theorem Came.getElem?_entries (hd : c.dir = none) {root' : Tree}
    (h : Came p x c root answer c' root') {key : String} {run : StoredRun}
    (hrun : c'.entries[key]? = some run) :
    c.entries[key]? = some run ∨ Turn.Stores p ⟨x, c, answer, c'⟩ key run := by
  cases h with
  | refused ht => exact .inl hrun
  | reused hplan hu he hc hget =>
    rw [RunCache.run_get_of_dir_eq_none hd] at hget
    obtain ⟨-, rfl⟩ := Prod.mk.inj (Prod.mk.inj hget).1
    exact .inl hrun
  | dropped hplan hc => exact .inl hrun
  | @kept plan runs c' root' hplan hw hc hput =>
    rw [RunCache.run_put_of_dir_eq_none hd] at hput
    cases hput
    rw [Std.ExtTreeMap.getElem?_insert] at hrun
    split at hrun
    · next heq =>
      obtain rfl := Std.LawfulEqOrd.eq_of_compare heq
      obtain rfl := Option.some.inj hrun
      obtain ⟨hfailures, hcancelled⟩ := Outcome.isComplete_iff.1 hc
      exact .inr ⟨⟨_, rfl, rfl, hfailures, hcancelled, hplan.graphHash, rfl, rfl, rfl,
        fun t ↦ hw.mem_artifacts hc⟩, rfl⟩
    · exact .inl hrun

theorem turns_spec (hd : c.dir = none) (calls : List Call) (root : Tree) :
    ∃ ts last, (p.turns c calls).run root = ((ts, last), root) ∧ ts.map Turn.call = calls ∧
      (∀ t ∈ ts, t.Sound p) ∧
      ∀ (key : String) (run : StoredRun), last.entries[key]? = some run →
        c.entries[key]? = some run ∨ ∃ t ∈ ts, t.Stores p key run := by
  induction calls generalizing c with
  | nil => exact ⟨[], c, rfl, rfl, by simp, fun key run h ↦ .inl h⟩
  | cons x calls ih =>
    obtain ⟨answer, c', root', hcall, hcame⟩ := came_call p c x root
    obtain ⟨hd', rfl⟩ := hcame.of_dir_eq_none hd
    obtain ⟨ts, last, hturns, hcalls, hsound, hentries⟩ := ih hd'
    refine ⟨⟨x, c, answer, c'⟩ :: ts, last, ?_, ?_, ?_, fun key run h ↦ ?_⟩
    · rw [turns, Script.run_bind, hcall]
      dsimp only
      rw [Script.run_bind, hturns]
      rfl
    · rw [List.map_cons, hcalls]
    · exact List.forall_mem_cons.2 ⟨hcame.sound hd, hsound⟩
    · rcases hentries key run h with h | ⟨t, ht, h⟩
      · exact (hcame.getElem?_entries hd h).imp_right fun h ↦ ⟨_, .head _, h⟩
      · exact .inr ⟨t, .tail _ ht, h⟩

/-- Whatever is called in whatever manner, what a cache in memory holds is what complete full runs
stored there under their keys, nothing else changes it, and nothing is taken from it but for the
graph and the versions at hand. -/
theorem turns_inMemory (p : Pipeline) (calls : List Call) (root : Tree) :
    ∃ ts last, (p.turns .inMemory calls).run root = ((ts, last), root) ∧
      ts.map Turn.call = calls ∧ (∀ t ∈ ts, t.Sound p) ∧
      ∀ (key : String) (run : StoredRun), last.entries[key]? = some run →
        ∃ t ∈ ts, t.Stores p key run := by
  obtain ⟨ts, last, hturns, hcalls, hsound, hentries⟩ :=
    turns_spec (p := p) (c := .inMemory) rfl calls root
  refine ⟨ts, last, hturns, hcalls, hsound, fun key run h ↦ ?_⟩
  exact (hentries key run h).resolve_left (by simp [RunCache.inMemory])

end Pipeline

end Multicloud
