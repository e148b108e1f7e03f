import ParSort.Conc.Proof.Race
import ParSort.Conc.Queue

/-!
# Programs with disjoint footprints commute

* `Steps.seq`, `Steps.of_seq`: the complete runs of `p.seq q` are those of `p` followed by those of
  `q`; `steps_forEach_iff` for one iteration of a loop.
* `Step.frame`: a step depends on its footprint alone and changes nothing else.
* `Steps.swap`: a step of `p` taken before a run of programs apart from it may be taken after.
-/

namespace Conc

namespace Prog

variable {A V ι : Type} [DecidableEq A]

/-! ## Runs of a sequence -/

theorem Step.seq {p p' : Prog A V} {m m' : Mem A V} (h : Step p m p' m') (q : Prog A V) :
    Step (p.seq q) m (p'.seq q) m' := by
  cases h with
  | load => exact .load
  | store => exact .store
  | left h => exact .left h
  | right h => exact .right h
  | join => exact .join

theorem Step.of_seq {p q r : Prog A V} {m m' : Mem A V} (hp : p ≠ done)
    (h : Step (p.seq q) m r m') : ∃ p', r = p'.seq q ∧ Step p m p' m' := by
  cases p with
  | done => exact absurd rfl hp
  | load a k =>
    cases h
    exact ⟨_, rfl, .load⟩
  | store a v k =>
    cases h
    exact ⟨_, rfl, .store⟩
  | par l r k =>
    cases h with
    | left h => exact ⟨_, rfl, .left h⟩
    | right h => exact ⟨_, rfl, .right h⟩
    | join => exact ⟨_, rfl, .join⟩

theorem Steps.seq {p q r : Prog A V} {m m' m'' : Mem A V} (hp : Steps p m done m')
    (hq : Steps q m' r m'') : Steps (p.seq q) m r m'' := by
  generalize he : (done : Prog A V) = e at hp
  induction hp with
  | refl =>
    subst he
    exact hq
  | head h _ ih => exact .head (h.seq q) (ih hq he)

theorem Steps.of_seq {p q : Prog A V} {m m'' : Mem A V} (h : Steps (p.seq q) m done m'') :
    ∃ m', Steps p m done m' ∧ Steps q m' done m'' := by
  generalize hs : p.seq q = s at h
  generalize he : (done : Prog A V) = e at h
  induction h generalizing p with
  | refl =>
    subst he
    cases p with
    | done =>
      obtain rfl : q = done := hs
      exact ⟨_, .refl, .refl⟩
    | load => cases hs
    | store => cases hs
    | par => cases hs
  | head h hrest ih =>
    subst hs he
    by_cases hp : p = done
    · subst hp
      exact ⟨_, .refl, .head h hrest⟩
    · obtain ⟨p', rfl, hstep⟩ := h.of_seq hp
      obtain ⟨m', h1, h2⟩ := ih rfl rfl
      exact ⟨m', .head hstep h1, h2⟩

theorem Steps.of_done {p : Prog A V} {m m' : Mem A V} (h : Steps done m p m') :
    p = done ∧ m' = m := by
  cases h with
  | refl => exact ⟨rfl, rfl⟩
  | head h _ => cases h

/-- What every complete run of a program ends with, every interleaving of it ends with. -/
theorem always_of_steps {p : Prog A V} {m : Mem A V} {Q : Mem A V → Prop}
    (h : ∀ m', Steps p m done m' → Q m') : Always Q p m := by
  induction wf_residual.apply p generalizing m with
  | intro p _ ih =>
    by_cases hd : p = done
    · subst hd
      exact .done (h m .refl)
    · exact .step hd fun p' m' hs => ih p' ⟨m, m', hs⟩ fun m'' h' => h m'' (.head hs h')

/-! ## One step and what it does not touch -/

/-- A step changes nothing outside the footprint of its program, and it can be taken, with the same
effect, from every memory that agrees on the footprint. -/
theorem Step.frame {p p' : Prog A V} {m m' : Mem A V} (h : Step p m p' m') {S : Set A}
    (hp : p.Within S) : (∀ a ∉ S, m' a = m a) ∧ ∀ n, (∀ a ∈ S, n a = m a) →
      ∃ n', Step p n p' n' ∧ (∀ a ∈ S, n' a = m' a) ∧ ∀ a ∉ S, n' a = n a := by
  induction h with
  | @load a k m =>
    refine ⟨fun _ _ => rfl, fun n hn => ⟨n, ?_, hn, fun _ _ => rfl⟩⟩
    rw [← hn a hp.1]
    exact .load
  | @store a v k m =>
    have hne : ∀ b ∉ S, b ≠ a := fun b hb e => hb (e ▸ hp.1)
    refine ⟨fun b hb => Function.update_of_ne (hne b hb) _ _, fun n hn => ⟨_, .store, ?_, ?_⟩⟩
    · intro b hb
      rw [Function.update_apply, Function.update_apply, hn b hb]
    · exact fun b hb => Function.update_of_ne (hne b hb) _ _
  | left _ ih =>
    obtain ⟨h1, h2⟩ := ih hp.1
    refine ⟨h1, fun n hn => ?_⟩
    obtain ⟨n', hs, hin, hout⟩ := h2 n hn
    exact ⟨n', .left hs, hin, hout⟩
  | right _ ih =>
    obtain ⟨h1, h2⟩ := ih hp.2.1
    refine ⟨h1, fun n hn => ?_⟩
    obtain ⟨n', hs, hin, hout⟩ := h2 n hn
    exact ⟨n', .right hs, hin, hout⟩
  | @join k m => exact ⟨fun _ _ => rfl, fun n hn => ⟨n, .join, hn, fun _ _ => rfl⟩⟩

end Prog

namespace Queue

open Prog

variable {A V ι : Type}

theorem Apart.done (q : Prog A V) : Apart .done q :=
  ⟨∅, Set.univ, Set.empty_disjoint _, trivial, within_univ q⟩

variable [DecidableEq A]

theorem Apart.step_left {p p' q : Prog A V} {m m' : Mem A V} (h : Apart p q)
    (hs : Prog.Step p m p' m') : Apart p' q := by
  obtain ⟨S, T, hd, hp, hq⟩ := h
  exact ⟨S, T, hd, hs.within hp, hq⟩

/-- Two steps of programs that are apart can be taken in either order. -/
theorem Apart.step_swap {p p' q q' : Prog A V} {m m' m'' : Mem A V} (h : Apart q p)
    (hp : Prog.Step p m p' m') (hq : Prog.Step q m' q' m'') :
    ∃ n, Prog.Step q m q' n ∧ Prog.Step p n p' m'' := by
  obtain ⟨T, S, hd, hqT, hpS⟩ := h
  have hout : ∀ a ∈ T, a ∉ S := fun a ha ha' => Set.disjoint_left.1 hd ha ha'
  obtain ⟨hpout, hpmove⟩ := hp.frame hpS
  obtain ⟨hqout, hqmove⟩ := hq.frame hqT
  obtain ⟨n, hqn, hnT, hnout⟩ := hqmove m fun a ha => (hpout a (hout a ha)).symm
  obtain ⟨n', hpn, hnS, hn'out⟩ := hpmove n fun a ha => hnout a fun ha' => hout a ha' ha
  obtain rfl : n' = m'' := by
    funext a
    by_cases haS : a ∈ S
    · rw [hnS a haS, hqout a fun ha' => hout a ha' haS]
    · rw [hn'out a haS]
      by_cases haT : a ∈ T
      · exact hnT a haT
      · rw [hnout a haT, hqout a haT, hpout a haS]
  exact ⟨n, hqn, hpn⟩

/-- A step taken before a run of a program apart from it may be taken after that run. -/
theorem Apart.steps_swap {p p' q q' : Prog A V} {m m' m'' : Mem A V} (h : Apart q p)
    (hp : Prog.Step p m p' m') (hq : Steps q m' q' m'') :
    ∃ n, Steps q m q' n ∧ Prog.Step p n p' m'' := by
  induction hq generalizing m with
  | refl => exact ⟨m, .refl, hp⟩
  | head hs _ ih =>
    obtain ⟨n, hqn, hpn⟩ := h.step_swap hp hs
    obtain ⟨n', hrest, hlast⟩ := ih (h.step_left hs) hpn
    exact ⟨n', .head hqn hrest, hlast⟩

/-- `Apart.steps_swap` for the programs of a loop, each apart from the stepping program. -/
theorem steps_forEach_swap {l : List ι} {q : ι → Prog A V} {p p' : Prog A V} {m m' m'' : Mem A V}
    (h : ∀ x ∈ l, Apart (q x) p) (hp : Prog.Step p m p' m')
    (hq : Steps (forEach l q) m' done m'') :
    ∃ n, Steps (forEach l q) m done n ∧ Prog.Step p n p' m'' := by
  induction l generalizing m m' with
  | nil =>
    obtain ⟨-, rfl⟩ := hq.of_done
    exact ⟨m, .refl, hp⟩
  | cons x l ih =>
    rw [forEach_cons] at hq
    obtain ⟨m₁, hx, hrest⟩ := hq.of_seq
    obtain ⟨n₁, hxn, hpn⟩ := (h x (.head _)).steps_swap hp hx
    obtain ⟨n, hrest, hlast⟩ := ih (fun y hy => h y (.tail _ hy)) hpn hrest
    exact ⟨n, hxn.seq hrest, hlast⟩

end Queue

end Conc
