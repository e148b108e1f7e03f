import ParSort.Conc.Proof.Basic

/-!
# Race-free programs are deterministic

* `exists_step`, `wf_residual`: an unfinished program can step, and no program runs forever.
* `Step.exec_eq`: a step of a race-free program does not change where `exec` ends. The induction is
  on the step; what carries it through a fork is that the step may be taken after any program `f`
  whose footprint the stepping program does not touch (for the right thread, `f` is the left one).
* `always_of_raceFree`: **every interleaving** of a race-free program is finite and ends in the
  memory `exec` computes. `Always.exec` is the converse: `exec` is one of the interleavings.
-/

namespace Conc

namespace Prog

variable {A V : Type} [DecidableEq A]

/-! ## Progress and termination -/

/-- A program that has not finished can take a step. -/
theorem exists_step (p : Prog A V) (hp : p ≠ done) (m : Mem A V) :
    ∃ p' m', Step p m p' m' := by
  induction p with
  | done => exact absurd rfl hp
  | load a k _ => exact ⟨_, _, .load⟩
  | store a v k _ => exact ⟨_, _, .store⟩
  | par l r k ihl ihr _ =>
    by_cases hl : l = done
    · by_cases hr : r = done
      · subst hl hr
        exact ⟨_, _, .join⟩
      · obtain ⟨r', m', h⟩ := ihr hr
        exact ⟨_, _, .right h⟩
    · obtain ⟨l', m', h⟩ := ihl hl
      exact ⟨_, _, .left h⟩

/-- `p'` is what some step of `p`, in some memory, leaves to run. -/
def Residual (p' p : Prog A V) : Prop := ∃ m m', Step p m p' m'

theorem acc_residual_par {l r k : Prog A V} (hl : Acc Residual l) (hr : Acc Residual r)
    (hk : Acc Residual k) : Acc Residual (par l r k) := by
  induction hl generalizing r with
  | intro l hl' ihl =>
    induction hr with
    | intro r hr' ihr =>
      refine ⟨_, ?_⟩
      rintro p' ⟨m, m', h⟩
      cases h with
      | left h => exact ihl _ ⟨m, m', h⟩ ⟨r, hr'⟩
      | right h => exact ihr _ ⟨m, m', h⟩
      | join => exact hk

/-- No program steps forever. -/
theorem wf_residual : WellFounded (Residual (A := A) (V := V)) := by
  refine ⟨fun p => ?_⟩
  induction p with
  | done => exact ⟨_, fun p' ⟨_, _, h⟩ => nomatch h⟩
  | load a k ih =>
    refine ⟨_, fun p' ⟨m, _, h⟩ => ?_⟩
    cases h
    exact ih _
  | store a v k ih =>
    refine ⟨_, fun p' ⟨_, _, h⟩ => ?_⟩
    cases h
    exact ih
  | par l r k ihl ihr ihk => exact acc_residual_par ihl ihr ihk

theorem Always.mono {Q R : Mem A V → Prop} {p : Prog A V} {m : Mem A V} (h : Always Q p m)
    (hQR : ∀ m, Q m → R m) : Always R p m := by
  induction h with
  | done hq => exact .done (hQR _ hq)
  | step hp _ ih => exact .step hp ih

/-! ## One step of a race-free program -/

theorem Step.within {p p' : Prog A V} {m m' : Mem A V} (h : Step p m p' m') {S : Set A}
    (hp : p.Within S) : p'.Within S := by
  induction h with
  | load => exact hp.2 _
  | store => exact hp.2
  | left _ ih => exact ⟨ih hp.1, hp.2⟩
  | right _ ih => exact ⟨hp.1, ih hp.2.1, hp.2.2⟩
  | join => exact hp.2.2

theorem Step.raceFree {p p' : Prog A V} {m m' : Mem A V} (h : Step p m p' m')
    (hp : p.RaceFree) : p'.RaceFree := by
  induction h with
  | load => exact hp _
  | store => exact hp
  | left h ih =>
    obtain ⟨⟨S, T, hd, hl, hr⟩, h1, h2⟩ := hp
    exact ⟨⟨S, T, hd, h.within hl, hr⟩, ih h1, h2⟩
  | right h ih =>
    obtain ⟨⟨S, T, hd, hl, hr⟩, h1, h2, h3⟩ := hp
    exact ⟨⟨S, T, hd, hl, h.within hr⟩, h1, ih h2, h3⟩
  | join => exact hp.2.2.2

/-- A step of `p`, taken before or after a program `f` that `p` does not touch, leads to the same
end. -/
theorem Step.exec_after [Nonempty V] {p p' : Prog A V} {m m' : Mem A V} (h : Step p m p' m') :
    ∀ {f : Prog A V} {S T : Set A}, f.Within S → p.Within T → Disjoint S T → p.RaceFree →
      p'.exec (f.exec m') = p.exec (f.exec m) := by
  induction h with
  | @load a k m =>
    intro f S T hf hp hd _
    have ha : a ∉ S := fun ha => Set.disjoint_left.1 hd ha hp.1
    rw [exec, exec_frame hf ha]
  | @store a v k m =>
    intro f S T hf hp hd _
    have ha : a ∉ S := fun ha => Set.disjoint_left.1 hd ha hp.1
    rw [exec, exec_update hf ha]
  | left _ ih =>
    intro f S T hf hp hd hr
    rw [exec, exec, ih hf hp.1 hd hr.2.1]
  | @right l r k m r' m' _ ih =>
    intro f S T hf hp hd hr
    -- the left thread runs before the step of the right one: it joins the program run first
    obtain ⟨⟨S', T', hd', hl', hr'⟩, -, hrr, -⟩ := hr
    have hfl : (f.seq l).Within (S ∪ S') :=
      within_seq.2 ⟨hf.mono Set.subset_union_left, hl'.mono Set.subset_union_right⟩
    have hdis : Disjoint (S ∪ S') (T ∩ T') := Set.disjoint_union_left.2
      ⟨hd.mono_right Set.inter_subset_left, hd'.mono_right Set.inter_subset_right⟩
    have hstep := ih hfl (hp.2.1.inter hr') hdis hrr
    simp only [exec_seq] at hstep
    rw [exec, exec, hstep]
  | join =>
    intro f S T _ _ _ _
    rfl

theorem Step.exec_eq [Nonempty V] {p p' : Prog A V} {m m' : Mem A V} (h : Step p m p' m')
    (hp : p.RaceFree) : p'.exec m' = p.exec m :=
  h.exec_after (f := done) (S := ∅) trivial (within_univ p) (Set.empty_disjoint _) hp

/-! ## Whole runs -/

/-- **Determinism.** Every interleaving of a race-free program ends in the memory `exec` computes
with the threads of each fork one after the other. -/
theorem always_of_raceFree [Nonempty V] {p : Prog A V} (hp : p.RaceFree) {m : Mem A V}
    {Q : Mem A V → Prop} (hQ : Q (p.exec m)) : Always Q p m := by
  induction wf_residual.apply p generalizing m with
  | intro p _ ih =>
    by_cases hd : p = done
    · subst hd
      exact .done hQ
    · refine .step hd fun p' m' h => ih p' ⟨m, m', h⟩ (h.raceFree hp) ?_
      rwa [h.exec_eq hp]

theorem Steps.trans {p p' p'' : Prog A V} {m m' m'' : Mem A V} (h : Steps p m p' m')
    (h' : Steps p' m' p'' m'') : Steps p m p'' m'' := by
  induction h with
  | refl => exact h'
  | head hs _ ih => exact .head hs (ih h')

theorem Steps.left {l l' : Prog A V} {m m' : Mem A V} (h : Steps l m l' m') (r k : Prog A V) :
    Steps (par l r k) m (par l' r k) m' := by
  induction h with
  | refl => exact .refl
  | head hs _ ih => exact .head (.left hs) ih

theorem Steps.right {r r' : Prog A V} {m m' : Mem A V} (h : Steps r m r' m') (l k : Prog A V) :
    Steps (par l r k) m (par l r' k) m' := by
  induction h with
  | refl => exact .refl
  | head hs _ ih => exact .head (.right hs) ih

/-- Running the threads of each fork one after the other is one of the interleavings. -/
theorem steps_exec (p : Prog A V) (m : Mem A V) : Steps p m done (p.exec m) := by
  induction p generalizing m with
  | done => exact .refl
  | load a k ih => exact .head .load (ih _ _)
  | store a v k ih => exact .head .store (ih _)
  | par l r k ihl ihr ihk =>
    exact ((ihl m).left r k).trans (((ihr _).right done k).trans (.head .join (ihk _)))

/-- What holds at the end of every interleaving holds at the end of each complete one. -/
theorem Always.of_steps {Q : Mem A V → Prop} {p : Prog A V} {m m' : Mem A V} (h : Always Q p m)
    (hs : Steps p m Prog.done m') : Q m' := by
  induction h with
  | done hq =>
    cases hs with
    | refl => exact hq
    | head h _ => cases h
  | step hp _ ih =>
    cases hs with
    | refl => exact absurd rfl hp
    | head h hs => exact ih _ _ h hs

theorem Always.exec {Q : Mem A V → Prop} {p : Prog A V} {m : Mem A V} (h : Always Q p m) :
    Q (p.exec m) := h.of_steps (steps_exec p m)

/-- For a race-free program, what every interleaving ends with is what `exec` ends with. -/
theorem always_iff [Nonempty V] {p : Prog A V} (hp : p.RaceFree) {m : Mem A V}
    {Q : Mem A V → Prop} : Always Q p m ↔ Q (p.exec m) :=
  ⟨Always.exec, always_of_raceFree hp⟩

end Prog

end Conc
