import ParSort.Conc.Prog
import Mathlib.Data.Set.Lattice
import Mathlib.Logic.Equiv.Basic
import Mathlib.Tactic.Tauto
import Mathlib.Tactic.SplitIfs

/-!
# Sequencing, loops, footprints and frames

How `Prog.exec`, `Prog.Within`, `Prog.RaceFree` and `Prog.map` act on the program builders, and the
frame facts: a program changes no cell outside its footprint (`exec_frame`), reads none
(`exec_congr`), and commutes with a store outside it (`exec_update`). For a loop whose iterations
have disjoint footprints, `exec_forEach_at` gives a cell its value after the one iteration that owns
it.
-/

namespace Conc

namespace Prog

variable {A B V ι κ : Type}

/-! ## Sequencing -/

@[simp] theorem seq_done (p : Prog A V) : p.seq done = p := by
  induction p with
  | done => rfl
  | load a k ih => simp only [seq, ih]
  | store a v k ih => simp only [seq, ih]
  | par l r k _ _ ih => simp only [seq, ih]

theorem seq_assoc (p q r : Prog A V) : (p.seq q).seq r = p.seq (q.seq r) := by
  induction p with
  | done => rfl
  | load a k ih => simp only [seq, ih]
  | store a v k ih => simp only [seq, ih]
  | par l r k _ _ ih => simp only [seq, ih]

theorem map_seq (f : A → B) (p q : Prog A V) : (p.seq q).map f = (p.map f).seq (q.map f) := by
  induction p with
  | done => rfl
  | load a k ih => simp only [seq, map, ih]
  | store a v k ih => simp only [seq, map, ih]
  | par l r k _ _ ih => simp only [seq, map, ih]

@[simp] theorem forEach_nil (body : ι → Prog A V) : forEach [] body = done := rfl

@[simp] theorem forEach_cons (x : ι) (l : List ι) (body : ι → Prog A V) :
    forEach (x :: l) body = (body x).seq (forEach l body) := rfl

@[simp] theorem parEach_nil (body : ι → Prog A V) : parEach [] body = done := rfl

@[simp] theorem parEach_cons (x : ι) (l : List ι) (body : ι → Prog A V) :
    parEach (x :: l) body = par (body x) (parEach l body) done := rfl

theorem forEach_map (f : κ → ι) (l : List κ) (body : ι → Prog A V) :
    forEach (l.map f) body = forEach l fun x => body (f x) := by
  induction l with
  | nil => rfl
  | cons x l ih => simp only [List.map_cons, forEach_cons, ih]

theorem forEach_append (l l' : List ι) (body : ι → Prog A V) :
    forEach (l ++ l') body = (forEach l body).seq (forEach l' body) := by
  induction l with
  | nil => rfl
  | cons x l ih => simp only [List.cons_append, forEach_cons, ih, seq_assoc]

theorem forEach_flatMap (f : κ → List ι) (l : List κ) (body : ι → Prog A V) :
    forEach (l.flatMap f) body = forEach l fun x => forEach (f x) body := by
  induction l with
  | nil => rfl
  | cons x l ih => rw [List.flatMap_cons, forEach_append, ih, forEach_cons]

theorem map_forEach (f : A → B) (l : List ι) (body : ι → Prog A V) :
    (forEach l body).map f = forEach l fun x => (body x).map f := by
  induction l with
  | nil => rfl
  | cons x l ih => rw [forEach_cons, map_seq, ih, forEach_cons]

theorem forEach_congr {l : List ι} {body body' : ι → Prog A V} (h : ∀ x ∈ l, body x = body' x) :
    forEach l body = forEach l body' := by
  induction l with
  | nil => rfl
  | cons x l ih =>
    rw [forEach_cons, forEach_cons, h x (.head _), ih fun y hy => h y (.tail _ hy)]

theorem forEach_eq_done {l : List ι} {body : ι → Prog A V} (h : ∀ x ∈ l, body x = done) :
    forEach l body = done := by
  induction l with
  | nil => rfl
  | cons x l ih =>
    rw [forEach_cons, h x (.head _), ih fun y hy => h y (.tail _ hy)]
    rfl

theorem parEach_congr {l : List ι} {body body' : ι → Prog A V} (h : ∀ x ∈ l, body x = body' x) :
    parEach l body = parEach l body' := by
  induction l with
  | nil => rfl
  | cons x l ih =>
    rw [parEach_cons, parEach_cons, h x (.head _), ih fun y hy => h y (.tail _ hy)]

/-! ## Footprints -/

@[simp] theorem within_seq {S : Set A} {p q : Prog A V} [Nonempty V] :
    (p.seq q).Within S ↔ p.Within S ∧ q.Within S := by
  induction p with
  | done => simp [seq, Within]
  | load a k ih => simp only [seq, Within, ih, forall_and, forall_const, and_assoc]
  | store a v k ih => simp only [seq, Within, ih, and_assoc]
  | par l r k _ _ ih => simp only [seq, Within, ih, and_assoc]

theorem within_forEach {S : Set A} {l : List ι} {body : ι → Prog A V} [Nonempty V] :
    (forEach l body).Within S ↔ ∀ x ∈ l, (body x).Within S := by
  induction l with
  | nil => simp [Within]
  | cons x l ih => simp [ih]

theorem within_parEach {S : Set A} {l : List ι} {body : ι → Prog A V} :
    (parEach l body).Within S ↔ ∀ x ∈ l, (body x).Within S := by
  induction l with
  | nil => simp [Within]
  | cons x l ih => simp [Within, ih]

theorem Within.mono {S T : Set A} {p : Prog A V} (h : p.Within S) (hST : S ⊆ T) : p.Within T := by
  induction p with
  | done => trivial
  | load a k ih => exact ⟨hST h.1, fun v => ih v (h.2 v)⟩
  | store a v k ih => exact ⟨hST h.1, ih h.2⟩
  | par l r k ihl ihr ihk => exact ⟨ihl h.1, ihr h.2.1, ihk h.2.2⟩

theorem Within.inter {S T : Set A} {p : Prog A V} (h : p.Within S) (h' : p.Within T) :
    p.Within (S ∩ T) := by
  induction p with
  | done => trivial
  | load a k ih => exact ⟨⟨h.1, h'.1⟩, fun v => ih v (h.2 v) (h'.2 v)⟩
  | store a v k ih => exact ⟨⟨h.1, h'.1⟩, ih h.2 h'.2⟩
  | par l r k ihl ihr ihk => exact ⟨ihl h.1 h'.1, ihr h.2.1 h'.2.1, ihk h.2.2 h'.2.2⟩

@[simp] theorem within_swap {S : Set A} {a b : A} [Nonempty V] :
    (swap a b : Prog A V).Within S ↔ a ∈ S ∧ b ∈ S := by
  simp only [swap, Within, forall_const]
  tauto

@[simp] theorem within_copy {S : Set A} {a b : A} [Nonempty V] :
    (copy a b : Prog A V).Within S ↔ a ∈ S ∧ b ∈ S := by
  simp [copy, Within]

@[simp] theorem within_swapIf {S : Set A} {c : V → V → Bool} {a b : A} [Nonempty V] :
    (swapIf c a b).Within S ↔ a ∈ S ∧ b ∈ S := by
  constructor
  · intro h
    exact ⟨h.1, (h.2 (Classical.arbitrary V)).1⟩
  · rintro ⟨ha, hb⟩
    refine ⟨ha, fun x => ⟨hb, fun y => ?_⟩⟩
    dsimp only
    split
    · exact within_swap.2 ⟨ha, hb⟩
    · trivial

theorem Within.map {S : Set A} {T : Set B} {f : A → B} {p : Prog A V} (h : p.Within S)
    (hf : ∀ a ∈ S, f a ∈ T) : (p.map f).Within T := by
  induction p with
  | done => trivial
  | load a k ih => exact ⟨hf a h.1, fun v => ih v (h.2 v)⟩
  | store a v k ih => exact ⟨hf a h.1, ih h.2⟩
  | par l r k ihl ihr ihk => exact ⟨ihl h.1, ihr h.2.1, ihk h.2.2⟩

theorem within_univ (p : Prog A V) : p.Within Set.univ := by
  induction p with
  | done => trivial
  | load a k ih => exact ⟨trivial, ih⟩
  | store a v k ih => exact ⟨trivial, ih⟩
  | par l r k ihl ihr ihk => exact ⟨ihl, ihr, ihk⟩

/-! ## Race freedom of the builders -/

theorem Serial.raceFree {p : Prog A V} (h : p.Serial) : p.RaceFree := by
  induction p with
  | done => trivial
  | load a k ih => exact fun v => ih v (h v)
  | store a v k ih => exact ih h
  | par l r k _ _ _ => exact h.elim

theorem Serial.seq {p q : Prog A V} (hp : p.Serial) (hq : q.Serial) : (p.seq q).Serial := by
  induction p with
  | done => exact hq
  | load a k ih => exact fun v => ih v (hp v)
  | store a v k ih => exact ih hp
  | par l r k _ _ _ => exact hp.elim

theorem serial_forEach {l : List ι} {body : ι → Prog A V} (h : ∀ x ∈ l, (body x).Serial) :
    (forEach l body).Serial := by
  induction l with
  | nil => trivial
  | cons x l ih => exact (h x (.head _)).seq (ih fun y hy => h y (.tail _ hy))

theorem serial_swap (a b : A) : (swap a b : Prog A V).Serial := fun _ _ => trivial

theorem serial_copy (a b : A) : (copy a b : Prog A V).Serial := fun _ => trivial

theorem serial_swapIf (c : V → V → Bool) (a b : A) : (swapIf c a b).Serial := by
  intro x y
  dsimp only
  split
  · exact serial_swap a b
  · trivial

theorem RaceFree.seq {p q : Prog A V} (hp : p.RaceFree) (hq : q.RaceFree) :
    (p.seq q).RaceFree := by
  induction p with
  | done => exact hq
  | load a k ih => exact fun v => ih v (hp v)
  | store a v k ih => exact ih hp
  | par l r k _ _ ih => exact ⟨hp.1, hp.2.1, hp.2.2.1, ih hp.2.2.2⟩

theorem raceFree_forEach {l : List ι} {body : ι → Prog A V} (h : ∀ x ∈ l, (body x).RaceFree) :
    (forEach l body).RaceFree := by
  induction l with
  | nil => trivial
  | cons x l ih => exact (h x (.head _)).seq (ih fun y hy => h y (.tail _ hy))

/-- Threads with pairwise disjoint footprints `S x` do not race. -/
theorem raceFree_parEach {l : List ι} {body : ι → Prog A V} {S : ι → Set A}
    (hS : l.Pairwise fun x y => Disjoint (S x) (S y)) (hw : ∀ x ∈ l, (body x).Within (S x))
    (h : ∀ x ∈ l, (body x).RaceFree) : (parEach l body).RaceFree := by
  induction l with
  | nil => trivial
  | cons x l ih =>
    obtain ⟨hx, hl⟩ := List.pairwise_cons.1 hS
    refine ⟨⟨S x, ⋃ y ∈ l, S y, ?_, hw x (.head _), ?_⟩, h x (.head _),
      ih hl (fun y hy => hw y (.tail _ hy)) (fun y hy => h y (.tail _ hy)), trivial⟩
    · rw [Set.disjoint_iUnion₂_right]
      exact hx
    · exact within_parEach.2 fun y hy =>
        (hw y (.tail _ hy)).mono fun a ha => Set.mem_iUnion₂.2 ⟨y, hy, ha⟩

theorem RaceFree.map {f : A → B} (hf : Function.Injective f) {p : Prog A V} (h : p.RaceFree) :
    (p.map f).RaceFree := by
  induction p with
  | done => trivial
  | load a k ih => exact fun v => ih v (h v)
  | store a v k ih => exact ih h
  | par l r k ihl ihr ihk =>
    obtain ⟨⟨S, T, hd, hl, hr⟩, h1, h2, h3⟩ := h
    refine ⟨⟨f '' S, f '' T, Set.disjoint_image_of_injective hf hd, hl.map ?_, hr.map ?_⟩,
      ihl h1, ihr h2, ihk h3⟩
    · exact fun a ha => Set.mem_image_of_mem f ha
    · exact fun a ha => Set.mem_image_of_mem f ha

/-! ## Execution -/

variable [DecidableEq A] [DecidableEq B]

@[simp] theorem exec_done (m : Mem A V) : (done : Prog A V).exec m = m := rfl

@[simp] theorem exec_seq (p q : Prog A V) (m : Mem A V) : (p.seq q).exec m = q.exec (p.exec m) := by
  induction p generalizing m with
  | done => rfl
  | load a k ih => exact ih _ _
  | store a v k ih => exact ih _
  | par l r k _ _ ih => exact ih _

theorem exec_forEach_congr {l : List ι} {body body' : ι → Prog A V}
    (h : ∀ x ∈ l, ∀ m, (body x).exec m = (body' x).exec m) (m : Mem A V) :
    (forEach l body).exec m = (forEach l body').exec m := by
  induction l generalizing m with
  | nil => rfl
  | cons x l ih =>
    rw [forEach_cons, forEach_cons, exec_seq, exec_seq, h x (.head _),
      ih fun y hy => h y (.tail _ hy)]

theorem exec_forEach_idle {l : List ι} {body : ι → Prog A V}
    (h : ∀ x ∈ l, ∀ m, (body x).exec m = m) (m : Mem A V) : (forEach l body).exec m = m := by
  induction l with
  | nil => rfl
  | cons x l ih => rw [forEach_cons, exec_seq, h x (.head _), ih fun y hy => h y (.tail _ hy)]

/-- A fork of the elements of a list ends like the loop over the list. -/
theorem exec_parEach (l : List ι) (body : ι → Prog A V) (m : Mem A V) :
    (parEach l body).exec m = (forEach l body).exec m := by
  induction l generalizing m with
  | nil => rfl
  | cons x l ih => simp [exec, ih]

@[simp] theorem exec_copy (a b : A) (m : Mem A V) :
    (copy a b).exec m = Function.update m b (m a) := rfl

@[simp] theorem exec_swap (a b : A) (m : Mem A V) : (swap a b).exec m = m ∘ Equiv.swap a b := by
  funext x
  simp only [swap, exec, Function.comp, Function.update_apply, Equiv.swap_apply_def]
  split_ifs <;> simp_all

theorem exec_swapIf (c : V → V → Bool) (a b : A) (m : Mem A V) :
    (swapIf c a b).exec m = if c (m a) (m b) then m ∘ Equiv.swap a b else m := by
  rw [swapIf, exec, exec]
  split
  · exact exec_swap a b m
  · rfl

/-- A program changes no cell outside its footprint. -/
theorem exec_frame {S : Set A} {p : Prog A V} (h : p.Within S) {a : A} (ha : a ∉ S)
    (m : Mem A V) : p.exec m a = m a := by
  induction p generalizing m with
  | done => rfl
  | load b k ih => exact ih _ (h.2 _) _
  | store b v k ih =>
    have hab : a ≠ b := fun e => ha (e ▸ h.1)
    rw [exec, ih h.2, Function.update_of_ne hab]
  | par l r k ihl ihr ihk => rw [exec, ihk h.2.2, ihr h.2.1, ihl h.1]

/-- A program commutes with a store outside its footprint. -/
theorem exec_update {S : Set A} {p : Prog A V} (h : p.Within S) {a : A} (ha : a ∉ S)
    (m : Mem A V) (v : V) :
    p.exec (Function.update m a v) = Function.update (p.exec m) a v := by
  induction p generalizing m with
  | done => rfl
  | load b k ih =>
    have hab : b ≠ a := fun e => ha (e ▸ h.1)
    rw [exec, exec, Function.update_of_ne hab, ih _ (h.2 _)]
  | store b w k ih =>
    have hab : b ≠ a := fun e => ha (e ▸ h.1)
    rw [exec, exec, Function.update_comm hab.symm, ih h.2]
  | par l r k ihl ihr ihk => rw [exec, exec, ihl h.1, ihr h.2.1, ihk h.2.2]

/-- What a program leaves in its footprint depends only on its footprint. -/
theorem exec_congr {S : Set A} {p : Prog A V} (h : p.Within S) {m m' : Mem A V}
    (hm : ∀ a ∈ S, m a = m' a) : ∀ a ∈ S, p.exec m a = p.exec m' a := by
  induction p generalizing m m' with
  | done => exact hm
  | load b k ih => rw [exec, exec, hm b h.1]; exact ih _ (h.2 _) hm
  | store b v k ih =>
    refine ih h.2 fun a ha => ?_
    by_cases hab : a = b
    · subst hab; simp
    · rw [Function.update_of_ne hab, Function.update_of_ne hab, hm a ha]
  | par l r k ihl ihr ihk => exact ihk h.2.2 (ihr h.2.1 (ihl h.1 hm))

/-- A loop keeps what each of its iterations keeps. -/
theorem exec_forEach_induction {l : List ι} {body : ι → Prog A V} {I : Mem A V → Prop}
    (h : ∀ x ∈ l, ∀ m, I m → I ((body x).exec m)) {m : Mem A V} (hm : I m) :
    I ((forEach l body).exec m) := by
  induction l generalizing m with
  | nil => exact hm
  | cons x l ih =>
    rw [forEach_cons, exec_seq]
    exact ih (fun y hy => h y (.tail _ hy)) (h x (.head _) m hm)

/-- A loop changes no cell outside the footprints of its iterations. -/
theorem exec_forEach_frame {l : List ι} {body : ι → Prog A V} {S : ι → Set A} {a : A}
    (hw : ∀ x ∈ l, (body x).Within (S x)) (ha : ∀ x ∈ l, a ∉ S x) (m : Mem A V) :
    (forEach l body).exec m a = m a := by
  induction l generalizing m with
  | nil => rfl
  | cons x l ih =>
    rw [forEach_cons, exec_seq, ih (fun y hy => hw y (.tail _ hy)) (fun y hy => ha y (.tail _ hy)),
      exec_frame (hw x (.head _)) (ha x (.head _))]

/-- In a loop over disjoint footprints, the cells of `S x` are the work of iteration `x` alone. -/
theorem exec_forEach_at {l : List ι} {body : ι → Prog A V} {S : ι → Set A}
    (hS : l.Pairwise fun x y => Disjoint (S x) (S y)) (hw : ∀ x ∈ l, (body x).Within (S x))
    {x : ι} (hx : x ∈ l) {a : A} (ha : a ∈ S x) (m : Mem A V) :
    (forEach l body).exec m a = (body x).exec m a := by
  induction l generalizing m with
  | nil => exact absurd hx List.not_mem_nil
  | cons y l ih =>
    obtain ⟨hy, hl⟩ := List.pairwise_cons.1 hS
    have hw' : ∀ z ∈ l, (body z).Within (S z) := fun z hz => hw z (.tail _ hz)
    rw [forEach_cons, exec_seq]
    rcases List.mem_cons.1 hx with rfl | hx
    · exact exec_forEach_frame hw' (fun z hz hz' => Set.disjoint_left.1 (hy z hz) ha hz') _
    · rw [ih hl hw' hx]
      refine exec_congr (hw' x hx) (fun b hb => ?_) a ha
      exact exec_frame (hw y (.head _)) (fun hb' => Set.disjoint_left.1 (hy x hx) hb' hb) m

/-- Of a loop whose body is two programs on disjoint footprints, each footprint sees its own. -/
theorem exec_forEach_restrict {l : List ι} {f g : ι → Prog A V} {S T : Set A}
    (hd : Disjoint S T) (hf : ∀ x ∈ l, (f x).Within S) (hg : ∀ x ∈ l, (g x).Within T)
    {m m' : Mem A V} (hm : ∀ a ∈ S, m a = m' a) : ∀ a ∈ S,
      (forEach l fun x => (f x).seq (g x)).exec m a = (forEach l f).exec m' a ∧
        (forEach l fun x => (g x).seq (f x)).exec m a = (forEach l f).exec m' a := by
  induction l generalizing m m' with
  | nil => exact fun a ha => ⟨hm a ha, hm a ha⟩
  | cons x l ih =>
    have hfx := hf x (.head _)
    have hgx := hg x (.head _)
    have hout : ∀ {m a}, a ∈ S → (g x).exec m a = m a := fun ha =>
      exec_frame hgx (Set.disjoint_left.1 hd ha) _
    intro a ha
    simp only [forEach_cons, exec_seq]
    constructor
    · refine (ih (fun y hy => hf y (.tail _ hy)) (fun y hy => hg y (.tail _ hy))
        (m := (g x).exec ((f x).exec m)) (fun b hb => ?_) a ha).1
      rw [hout hb]
      exact exec_congr hfx hm b hb
    · refine (ih (fun y hy => hf y (.tail _ hy)) (fun y hy => hg y (.tail _ hy))
        (m := (f x).exec ((g x).exec m)) (fun b hb => ?_) a ha).2
      exact exec_congr hfx (fun c hc => (hout hc).trans (hm c hc)) b hb

/-! ## Renamed addresses -/

theorem exec_map {f : A → B} (hf : Function.Injective f) (p : Prog A V) (m : Mem B V) :
    (p.map f).exec m ∘ f = p.exec (m ∘ f) := by
  induction p generalizing m with
  | done => rfl
  | load a k ih => exact ih _ _
  | store a v k ih => rw [map, exec, exec, ih, Function.update_comp_eq_of_injective m hf]
  | par l r k ihl ihr ihk => rw [map, exec, exec, ihk, ihr, ihl]

end Prog

end Conc
