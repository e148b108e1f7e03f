import ParSort.Aocl.Host
import ParSort.Resource.Meets

/-!
# `init_opencl` and `cleanup`

`Inv` ties the handles to the ledger: every object held is stored in its place or named by `E`, the
objects that only locals hold. A program is a sequence of checked calls, and `Fails` says how a run
stops at the first one that fails; `meets_check` and its companions prove it one call at a time.
-/

namespace Aocl

open Resource Ledger

/-! ## What the handles hold -/

/-- The place for `o` holds its handle. -/
def Stored (w : World) : Object → Prop
  | .context => w.context = .object .context
  | .program => w.program = .object .program
  | .slot kind i => w.slot i kind = .object (.slot kind i)
  | .event _ _ => False
  | .buffer _ => False

/-- Every handle is that of its own object, and the objects held are those stored and those of
`E`, which no place holds. -/
structure Inv (order : List Kind) (E : Object → Prop) (w : World) : Prop where
  context : w.context = .null ∨ w.context = .object .context
  program : w.program = .null ∨ w.program = .object .program
  slot : ∀ i kind, w.slot i kind = .object (.slot kind i) ∨ w.slot i kind = .null ∨
    w.slot i kind = .uninitialised
  range : ∀ i kind, Stored w (.slot kind i) → i < w.numDevices ∧ kind ∈ order
  extra : ∀ o, E o → ¬Stored w o
  log : Holds w.log fun o => E o ∨ Stored w o

/-- No handle that `cleanup` reads is uninitialised. -/
def Ready (order : List Kind) (w : World) : Prop :=
  ∀ i < w.numDevices, ∀ kind ∈ order, w.slot i kind ≠ .uninitialised

/-! ## `cleanup` -/

/-- The handles that `cleanup` reads. -/
def handles (order : List Kind) (w : World) : List Handle :=
  ((List.range w.numDevices).flatMap fun i => order.map (w.slot i)) ++ [w.program, w.context]

theorem cleanup_eq (order : List Kind) (w : World) :
    cleanup order w = ((handles order w).forM release) w := by
  have hloop : ((List.range w.numDevices).flatMap fun i => order.map (w.slot i)).forM release =
      (List.range w.numDevices).forM fun i => order.forM fun kind => release (w.slot i kind) := by
    rw [forM_flatMap]
    congr 1
    funext i
    rw [List.forM_eq_forM, List.forM_map]
    rfl
  have htwo : [w.program, w.context].forM release =
      (release w.program >>= fun _ => release w.context) := by
    rw [List.forM_eq_forM, List.forM_cons, List.forM_cons, List.forM_nil]
    congr 1
    funext _
    exact bind_pure (release w.context)
  rw [handles, List.forM_eq_forM, List.forM_append, ← List.forM_eq_forM,
    hloop, htwo]
  rfl

/-- Releasing distinct handles releases their objects, up to the first uninitialised one. -/
theorem meets_releases {hs : List Handle} {w : World} {P : Object → Prop} (hlog : Holds w.log P)
    (hd : hs.Pairwise fun h h' => ∀ o, h = .object o → h' ≠ .object o)
    (hP : ∀ o, .object o ∈ hs → P o) :
    Meets (hs.forM release) w
      (fun _ w' => .uninitialised ∉ hs ∧ Holds w'.log fun o => P o ∧ .object o ∉ hs)
      (fun e w' => e = .undefined ∧ .uninitialised ∈ hs ∧ ∃ P', Holds w'.log P') := by
  induction hs generalizing w P with
  | nil => exact ⟨List.not_mem_nil, hlog.congr fun o => by simp⟩
  | cons h hs ih =>
    obtain ⟨hh, hrest⟩ := List.pairwise_cons.1 hd
    cases h with
    | uninitialised => exact ⟨rfl, .head _, P, hlog⟩
    | null =>
      refine meets_bind (meets_pure ((ih hlog hrest fun o ho => hP o (.tail _ ho)).mono ?_ ?_))
      · rintro _ w' ⟨hno, hw'⟩
        exact ⟨by simpa using hno, hw'.congr fun o => by simp⟩
      · rintro e w' ⟨he, hin, hw'⟩
        exact ⟨he, .tail _ hin, hw'⟩
    | object x =>
      have hx : P x := hP x (.head _)
      refine meets_bind (meets_modify ((ih (hlog.release hx) hrest fun o ho => ?_).mono ?_ ?_))
      · exact ⟨hP o (.tail _ ho), fun e => hh (.object o) ho x rfl (by rw [e])⟩
      · rintro _ w' ⟨hno, hw'⟩
        refine ⟨by simpa using hno, hw'.congr fun o => ?_⟩
        simp only [List.mem_cons, Handle.object.injEq, not_or, and_assoc]
      · rintro e w' ⟨he, hin, hw'⟩
        exact ⟨he, .tail _ hin, hw'⟩

section
variable {order : List Kind} {E : Object → Prop} {w : World} (hw : Inv order E w)
include hw

theorem Inv.mem_handles {o : Object} : .object o ∈ handles order w ↔ Stored w o := by
  simp only [handles, List.mem_append, List.mem_flatMap, List.mem_range, List.mem_map,
    List.mem_cons, List.not_mem_nil, or_false]
  constructor
  · rintro (⟨i, -, kind, -, heq⟩ | heq | heq)
    · obtain h | h | h := hw.slot i kind
      · obtain rfl : Object.slot kind i = o := by simpa [h] using heq
        exact h
      · rw [h] at heq
        cases heq
      · rw [h] at heq
        cases heq
    · obtain h | h := hw.program
      · rw [h] at heq
        cases heq
      · obtain rfl : o = .program := by simpa [h] using heq
        exact h
    · obtain h | h := hw.context
      · rw [h] at heq
        cases heq
      · obtain rfl : o = .context := by simpa [h] using heq
        exact h
  · intro h
    cases o with
    | context => exact .inr (.inr h.symm)
    | program => exact .inr (.inl h.symm)
    | slot kind i =>
      obtain ⟨hi, hkind⟩ := hw.range i kind h
      exact .inl ⟨i, hi, kind, hkind, h⟩
    | event i e => exact h.elim
    | buffer b => exact h.elim

theorem Inv.handles_distinct (hnd : order.Nodup) :
    (handles order w).Pairwise fun h h' => ∀ o, h = .object o → h' ≠ .object o := by
  have hslot : ∀ {i kind o}, w.slot i kind = .object o → o = .slot kind i := by
    intro i kind o heq
    obtain h | h | h := hw.slot i kind
    · simpa [h] using heq.symm
    · rw [h] at heq
      cases heq
    · rw [h] at heq
      cases heq
  refine List.pairwise_append.2 ⟨List.pairwise_flatMap.2 ⟨fun i _ => ?_, ?_⟩, ?_, ?_⟩
  · refine List.pairwise_map.2 (hnd.imp fun hne o h h' => hne ?_)
    have heq := (hslot h).symm.trans (hslot h')
    injection heq
  · refine List.nodup_range.imp fun {i i'} hne => ?_
    intro h hh h' hh' o heq heq'
    obtain ⟨kind, -, rfl⟩ := List.mem_map.1 hh
    obtain ⟨kind', -, rfl⟩ := List.mem_map.1 hh'
    have heq := (hslot heq).symm.trans (hslot heq')
    injection heq with _ hi
    exact hne hi
  · refine List.pairwise_pair.2 fun o h h' => ?_
    obtain hp | hp := hw.program
    · simp [hp] at h
    · obtain rfl : o = .program := by simpa [hp] using h.symm
      obtain hc | hc := hw.context <;> simp [hc] at h'
  · intro h hh h' hh' o heq heq'
    obtain ⟨i, -, hh⟩ := List.mem_flatMap.1 hh
    obtain ⟨kind, -, rfl⟩ := List.mem_map.1 hh
    obtain rfl := hslot heq
    simp only [List.mem_cons, List.not_mem_nil, or_false] at hh'
    obtain rfl | rfl := hh'
    · obtain hp | hp := hw.program <;> simp [hp] at heq'
    · obtain hc | hc := hw.context <;> simp [hc] at heq'

theorem Inv.ready_iff : Ready order w ↔ .uninitialised ∉ handles order w := by
  have hp : w.program ≠ .uninitialised := by obtain h | h := hw.program <;> simp [h]
  have hc : w.context ≠ .uninitialised := by obtain h | h := hw.context <;> simp [h]
  simp only [Ready, handles, List.mem_append, List.mem_flatMap, List.mem_range, List.mem_map,
    List.mem_cons, List.not_mem_nil, or_false, hp.symm, hc.symm]
  push Not
  rfl

/-- **`cleanup`** releases all that is stored, unless it reads an uninitialised handle. -/
theorem meets_cleanup (hnd : order.Nodup) : Meets (cleanup order) w
    (fun _ w' => Ready order w ∧ Holds w'.log E)
    (fun e w' => e = .undefined ∧ ¬Ready order w ∧ ∃ P, Holds w'.log P) := by
  have h := meets_releases hw.log (hw.handles_distinct hnd) fun o ho => .inr (hw.mem_handles.1 ho)
  unfold Meets at h ⊢
  rw [cleanup_eq]
  split
  · rename_i hrun
    rw [hrun] at h
    refine ⟨hw.ready_iff.2 h.1, h.2.congr fun o => ?_⟩
    rw [hw.mem_handles]
    constructor
    · rintro ⟨h | h, hns⟩
      · exact h
      · exact absurd h hns
    · exact fun h => ⟨.inl h, hw.extra o h⟩
  · rename_i hrun
    rw [hrun] at h
    exact ⟨h.1, by rw [hw.ready_iff]; exact not_not_intro h.2.1, h.2.2⟩

end

/-! ## One call -/

/-- The first of the calls that fails. -/
def firstFailure (env : Env) (calls : List Call) : Option Call :=
  calls.find? fun c => env.status c ≠ 0

/-- A run stops at the first failure `c` of its calls: it reads an uninitialised handle when
`bad c`, and else exits with the status of `c` and leaves the objects `leak c` behind. -/
def Fails (env : Env) (calls : List Call) (bad : Call → Prop) (leak : Call → Object → Prop)
    (e : Stop) (w : World) : Prop :=
  ∃ c, firstFailure env calls = some c ∧
    (e = .exit (env.status c) ∧ ¬bad c ∧ Holds w.log (leak c) ∨
      e = .undefined ∧ bad c ∧ ∃ P, Holds w.log P)

section
variable {env : Env} {calls : List Call} {c : Call}

theorem firstFailure_cons_of_ok (h : env.status c = 0) :
    firstFailure env (c :: calls) = firstFailure env calls :=
  List.find?_cons_of_neg (by simp [h])

theorem firstFailure_cons_of_fail (h : env.status c ≠ 0) :
    firstFailure env (c :: calls) = some c :=
  List.find?_cons_of_pos (by simp [h])

theorem firstFailure_append_of_ok {l : List Call} (h : ∀ c ∈ l, env.status c = 0) :
    firstFailure env (l ++ calls) = firstFailure env calls := by
  induction l with
  | nil => rfl
  | cons c l ih =>
    rw [List.cons_append, firstFailure_cons_of_ok (h c (.head _))]
    exact ih fun c hc => h c (.tail _ hc)

theorem firstFailure_eq_none_iff :
    firstFailure env calls = none ↔ ∀ c ∈ calls, env.status c = 0 := by
  simp [firstFailure]

theorem Fails.append_of_ok {bad : Call → Prop} {leak : Call → Object → Prop} {e : Stop} {w : World}
    {l : List Call} (h : Fails env calls bad leak e w) (hl : firstFailure env l = none) :
    Fails env (l ++ calls) bad leak e w := by
  obtain ⟨c, hc, hstop⟩ := h
  exact ⟨c, by rwa [firstFailure_append_of_ok (firstFailure_eq_none_iff.1 hl)], hstop⟩

theorem mem_of_firstFailure (h : firstFailure env calls = some c) : c ∈ calls :=
  List.mem_of_find?_eq_some h

theorem Fails.mono {bad bad' : Call → Prop} {leak leak' : Call → Object → Prop} {e : Stop}
    {w : World} (h : Fails env calls bad leak e w) (hbad : ∀ c ∈ calls, (bad c ↔ bad' c))
    (hleak : ∀ c ∈ calls, ∀ o, leak c o ↔ leak' c o) (l : List Call) :
    Fails env (calls ++ l) bad' leak' e w := by
  obtain ⟨c, hc, hstop⟩ := h
  have hmem := mem_of_firstFailure hc
  refine ⟨c, ?_, hstop.imp (fun ⟨he, hb, hlog⟩ => ⟨he, fun hb' => hb ((hbad c hmem).2 hb'),
    hlog.congr (hleak c hmem)⟩) fun ⟨he, hb, hlog⟩ => ⟨he, (hbad c hmem).1 hb, hlog⟩⟩
  rw [firstFailure, List.find?_append, ← firstFailure, hc, Option.some_or]

end

section
variable {env : Env} {order : List Kind} {E : Object → Prop} {w : World}
  {bad : Call → Prop} {leak : Call → Object → Prop} {calls : List Call} {c : Call} {α : Type}

/-- A call that failed. -/
theorem meets_checkError_of_fail {Q : PUnit → World → Prop} (hw : Inv order E w)
    (hnd : order.Nodup) (h : env.status c ≠ 0) (hfirst : firstFailure env calls = some c)
    (hbad : bad c ↔ ¬Ready order w) (hleak : ∀ o, E o ↔ leak c o) :
    Meets (checkError order (env.status c)) w Q (Fails env calls bad leak) := by
  unfold checkError
  rw [if_pos h]
  refine meets_bind ((meets_cleanup hw hnd).mono ?_ ?_)
  · rintro _ w' ⟨hready, hlog⟩
    exact ⟨c, hfirst, .inl ⟨rfl, fun hb => hbad.1 hb hready, hlog.congr hleak⟩⟩
  · rintro e w' ⟨he, hready, hlog⟩
    exact ⟨c, hfirst, .inr ⟨he, hbad.2 hready, hlog⟩⟩

theorem meets_checkError_of_ok {Q : PUnit → World → Prop} {X : Stop → World → Prop}
    (h : env.status c = 0) (hQ : Q ⟨⟩ w) : Meets (checkError order (env.status c)) w Q X := by
  unfold checkError
  rw [if_neg (not_not_intro h)]
  exact hQ

/-- A call is checked and the rest `k` of the program runs. -/
theorem meets_check {k : Host α} {Q : α → World → Prop} (hw : Inv order E w) (hnd : order.Nodup)
    (hbad : bad c ↔ ¬Ready order w) (hleak : ∀ o, E o ↔ leak c o)
    (hk : env.status c = 0 → Meets k w Q (Fails env calls bad leak)) :
    Meets (checkError order (env.status c) >>= fun _ => k) w Q
      (Fails env (c :: calls) bad leak) := by
  refine meets_bind ?_
  by_cases h : env.status c = 0
  · refine meets_checkError_of_ok h ((hk h).mono (fun _ _ hQ => hQ) fun e w' ⟨c', hc', hstop⟩ => ?_)
    exact ⟨c', by rwa [firstFailure_cons_of_ok h], hstop⟩
  · exact meets_checkError_of_fail hw hnd h (firstFailure_cons_of_fail h) hbad hleak

/-- A call that succeeded. -/
theorem meets_check_of_ok {k : Host α} {Q : α → World → Prop} (h : env.status c = 0)
    (hk : Meets k w Q (Fails env calls bad leak)) :
    Meets (checkError order (env.status c) >>= fun _ => k) w Q
      (Fails env (c :: calls) bad leak) := by
  refine meets_bind (meets_checkError_of_ok h (hk.mono (fun _ _ hQ => hQ) ?_))
  rintro e w' ⟨c', hc', hstop⟩
  exact ⟨c', by rwa [firstFailure_cons_of_ok h], hstop⟩

/-- Calls that are checked one after the other. -/
theorem meets_checks {ι : Type} {l : List ι} {call : ι → Call} {k : Host α}
    {Q : α → World → Prop} (hw : Inv order E w) (hnd : order.Nodup)
    (hbad : ∀ i ∈ l, (bad (call i) ↔ ¬Ready order w)) (hleak : ∀ i ∈ l, ∀ o, E o ↔ leak (call i) o)
    (hk : (∀ i ∈ l, env.status (call i) = 0) → Meets k w Q (Fails env calls bad leak)) :
    Meets ((l.forM fun i => checkError order (env.status (call i))) >>= fun _ => k) w Q
      (Fails env (l.map call ++ calls) bad leak) := by
  induction l with
  | nil => exact hk (by simp)
  | cons i l ih =>
    have hcons : ((i :: l).forM fun i => checkError order (env.status (call i))) =
      (checkError order (env.status (call i)) >>= fun _ =>
        l.forM fun i => checkError order (env.status (call i))) := rfl
    rw [hcons, bind_assoc]
    refine meets_check hw hnd (hbad i (.head _)) (hleak i (.head _)) fun h => ?_
    refine ih (fun j hj => hbad j (.tail _ hj)) (fun j hj => hleak j (.tail _ hj)) fun hl => hk ?_
    rintro j (_ | ⟨_, hj⟩)
    · exact h
    · exact hl j hj

theorem meets_newObject {o : Object} {Q : Handle → World → Prop} {X : Stop → World → Prop}
    (hok : env.status c = 0 → Q (.object o) { w with log := w.log ++ [.acquire o] })
    (hnull : env.status c ≠ 0 → Q .null w) : Meets (newObject env c o) w Q X := by
  unfold newObject
  split
  · exact hok ‹_›
  · exact hnull ‹_›

end

/-! ## Events -/

section
variable {order : List Kind} {E E' : Object → Prop} {w : World} (hw : Inv order E w) {i e : Nat}
include hw

theorem Inv.congr (h : ∀ o, E o ↔ E' o) : Inv order E' w := by
  obtain rfl : E = E' := funext fun o => propext (h o)
  exact hw

theorem Inv.acquire_event (h : ¬E (.event i e)) : Inv order (fun o => E o ∨ o = .event i e)
    { w with log := w.log ++ [.acquire (.event i e)] } where
  context := hw.context
  program := hw.program
  slot := hw.slot
  range := hw.range
  extra o := by
    rintro (ho | rfl)
    · exact hw.extra o ho
    · exact id
  log := (hw.log.acquire fun hc => hc.elim h id).congr fun o => by rw [or_right_comm]; rfl

theorem Inv.release_event (h : E (.event i e)) : Inv order (fun o => E o ∧ o ≠ .event i e)
    { w with log := w.log ++ [.release (.event i e)] } where
  context := hw.context
  program := hw.program
  slot := hw.slot
  range := hw.range
  extra o ho := hw.extra o ho.1
  log := (hw.log.release (.inl h)).congr fun o => by
    refine ⟨fun ⟨ho, hne⟩ => ho.imp_left fun ho => ⟨ho, hne⟩, ?_⟩
    rintro (⟨ho, hne⟩ | ho)
    · exact ⟨.inl ho, hne⟩
    · exact ⟨.inr ho, fun e => by subst e; exact ho⟩

end

/-! ## The arrays -/

section
variable {w : World}

theorem slot_set {i : Nat} {kind : Kind} {h : Handle} (ha : (w.arrays kind).isSome) (i' : Nat)
    (kind' : Kind) : (w.set i kind h).slot i' kind' =
      if i' = i ∧ kind' = kind then h else w.slot i' kind' := by
  obtain ⟨array, ha⟩ := Option.isSome_iff_exists.1 ha
  unfold World.slot World.set
  by_cases hk : kind' = kind
  · subst hk
    by_cases hi : i' = i
    · simp [ha, hi]
    · simp [ha, hi]
  · simp [hk]

theorem arrays_set {i : Nat} {kind kind' : Kind} {h : Handle} :
    ((w.set i kind h).arrays kind').isSome = (w.arrays kind').isSome := by
  unfold World.set
  by_cases hk : kind' = kind
  · subst hk
    simp
  · simp [hk]

/-- After the resets, every array of `kinds` is there and uninitialised. -/
theorem arrays_resets (kinds : List Kind) {kind : Kind} :
    (kinds.foldl World.reset w).arrays kind =
      if kind ∈ kinds then some fun _ => .uninitialised else w.arrays kind := by
  induction kinds generalizing w with
  | nil => simp
  | cons k kinds ih =>
    rw [List.foldl_cons, ih]
    by_cases hk : kind = k
    · simp [World.reset, hk]
    · simp [World.reset, hk]

theorem resets_eq (kinds : List Kind) :
    kinds.foldl World.reset w = { w with arrays := (kinds.foldl World.reset w).arrays } := by
  induction kinds generalizing w with
  | nil => rfl
  | cons k kinds ih =>
    rw [List.foldl_cons, ih]
    rfl

end

section
variable {order : List Kind} {E : Object → Prop} {w : World} (hw : Inv order E w) {i : Nat}
  {kind : Kind} (ha : (w.arrays kind).isSome) (hslot : w.slot i kind = .uninitialised)
include hw ha hslot

/-- A slot is given the handle of its new object. -/
theorem Inv.set_object (hi : i < w.numDevices) (hkind : kind ∈ order) (hE : ¬E (.slot kind i)) :
    Inv order E
      (World.set { w with log := w.log ++ [.acquire (.slot kind i)] } i kind
        (.object (.slot kind i))) := by
  have hs := slot_set (w := { w with log := w.log ++ [.acquire (.slot kind i)] }) (i := i)
    (h := .object (.slot kind i)) ha
  have hst : ∀ o, Stored (World.set { w with log := w.log ++ [.acquire (.slot kind i)] } i kind
      (.object (.slot kind i))) o ↔ Stored w o ∨ o = .slot kind i := fun o => by
    cases o with
    | slot kind' i' =>
      simp only [Stored, hs]
      by_cases h : i' = i ∧ kind' = kind
      · obtain ⟨rfl, rfl⟩ := h
        simp
      · have hne : ¬(kind' = kind ∧ i' = i) := fun ⟨h1, h2⟩ => h ⟨h2, h1⟩
        simp only [if_neg h, Object.slot.injEq, hne, or_false]
        rfl
    | context => simp [Stored, World.set]
    | program => simp [Stored, World.set]
    | event i' e => simp [Stored]
    | buffer b => simp [Stored]
  have hns : ¬Stored w (.slot kind i) := by simp [Stored, hslot]
  refine ⟨hw.context, hw.program, fun i' kind' => ?_, fun i' kind' h => ?_, fun o ho h => ?_, ?_⟩
  · rw [hs]
    by_cases h : i' = i ∧ kind' = kind
    · obtain ⟨rfl, rfl⟩ := h
      simp
    · rw [if_neg h]
      exact hw.slot i' kind'
  · obtain h | h := (hst _).1 h
    · exact hw.range i' kind' h
    · obtain ⟨rfl, rfl⟩ : kind' = kind ∧ i' = i := by simpa using h
      exact ⟨hi, hkind⟩
  · obtain h | rfl := (hst o).1 h
    · exact hw.extra o ho h
    · exact hE ho
  · have hlog := hw.log.acquire (x := .slot kind i) fun h => h.elim hE hns
    refine hlog.congr fun o => ?_
    rw [hst, or_assoc]

/-- A slot is given the null handle of a call that failed. -/
theorem Inv.set_null : Inv order E (w.set i kind .null) := by
  have hs := slot_set (i := i) (h := .null) ha
  have hst : ∀ o, Stored (w.set i kind .null) o ↔ Stored w o := fun o => by
    cases o with
    | slot kind' i' =>
      simp only [Stored, hs]
      by_cases h : i' = i ∧ kind' = kind
      · obtain ⟨rfl, rfl⟩ := h
        simp [hslot]
      · rw [if_neg h]
    | context => rfl
    | program => rfl
    | event i' e => rfl
    | buffer b => rfl
  refine ⟨hw.context, hw.program, fun i' kind' => ?_, fun i' kind' h => ?_, fun o ho h => ?_, ?_⟩
  · rw [hs]
    by_cases h : i' = i ∧ kind' = kind
    · rw [if_pos h]
      exact .inr (.inl rfl)
    · rw [if_neg h]
      exact hw.slot i' kind'
  · exact hw.range i' kind' ((hst _).1 h)
  · exact hw.extra o ho ((hst o).1 h)
  · exact hw.log.congr fun o => by rw [hst]

end

/-! ## The loop over the devices -/

/-- The places of the objects of all devices, in the order of their creation. -/
def slots (kinds : List Kind) (n : Nat) : List (Nat × Kind) := (List.range n).product kinds

def createCalls (kinds : List Kind) (n : Nat) : List Call :=
  (slots kinds n).map fun p => .create p.2 p.1

/-- A creation with another one after it. -/
def Midway (kinds : List Kind) (n : Nat) (c : Call) : Prop :=
  c ∈ createCalls kinds n ∧ (createCalls kinds n).getLast? ≠ some c

/-- A program whose binary one of the devices rejects is lost: no global holds it yet. -/
def InitLeak (c : Call) (o : Object) : Prop := o = .program ∧ ∃ i, c = .binaryStatus i

/-- The objects of the places in `done` are created, those of `todo` are not. -/
structure Built (order : List Kind) (done todo : List (Nat × Kind)) (w : World) : Prop where
  inv : Inv order (fun _ => False) w
  context : w.context = .object .context
  program : w.program = .object .program
  done : ∀ p ∈ done, w.slot p.1 p.2 = .object (.slot p.2 p.1)
  todo : ∀ p ∈ todo, (w.arrays p.2).isSome ∧ w.slot p.1 p.2 = .uninitialised

section
variable {kinds order : List Kind} {n : Nat} {env : Env} {w : World}

theorem mem_slots {p : Nat × Kind} : p ∈ slots kinds n ↔ p.1 < n ∧ p.2 ∈ kinds := by
  obtain ⟨i, kind⟩ := p
  rw [slots, List.pair_mem_product, List.mem_range]

theorem create_injective : Function.Injective fun p : Nat × Kind => Call.create p.2 p.1 := by
  rintro p p' h
  injection h with h h'
  exact Prod.ext h' h

section
variable {done todo : List (Nat × Kind)} {p : Nat × Kind}
  (hslots : slots kinds n = done ++ p :: todo)
include hslots

theorem midway_iff (hnd : kinds.Nodup) : Midway kinds n (.create p.2 p.1) ↔ todo ≠ [] := by
  have hcalls : (slots kinds n).Nodup := List.nodup_range.product hnd
  have hmem : Call.create p.2 p.1 ∈ createCalls kinds n :=
    List.mem_map_of_mem (f := fun p : Nat × Kind => Call.create p.2 p.1) (by simp [hslots])
  rw [Midway, and_iff_right hmem, createCalls, List.getLast?_map, hslots]
  rw [hslots] at hcalls
  obtain rfl | ⟨l, q, rfl⟩ := todo.eq_nil_or_concat
  · simp
  · have hne : q ≠ p := by
      rintro rfl
      simp [List.nodup_append, List.nodup_cons] at hcalls
    rw [List.concat_eq_append, ← List.cons_append, ← List.append_assoc, List.getLast?_concat,
      Option.map_some]
    exact iff_of_true (fun h => hne (create_injective (Option.some.inj h))) (by simp)

theorem Built.ready_set_null (hnd : kinds.Nodup) (hperm : ∀ kind, kind ∈ kinds ↔ kind ∈ order)
    (hw : Built order done (p :: todo) w) (hn : w.numDevices = n) :
    Ready order (w.set p.1 p.2 .null) ↔ todo = [] := by
  obtain ⟨ha, -⟩ := hw.todo p (.head _)
  have hslots' : (slots kinds n).Nodup := List.nodup_range.product hnd
  constructor
  · intro hready
    refine List.eq_nil_iff_forall_not_mem.2 fun q hq => ?_
    obtain ⟨hi, hkind⟩ := mem_slots.1 (hslots ▸ by simp [hq] : q ∈ slots kinds n)
    have hne : ¬(q.1 = p.1 ∧ q.2 = p.2) := fun ⟨h1, h2⟩ => by
      obtain rfl : q = p := Prod.ext h1 h2
      rw [hslots] at hslots'
      exact (List.nodup_cons.1 (List.nodup_append.1 hslots').2.1).1 hq
    refine hready q.1 (hn ▸ hi) q.2 ((hperm _).1 hkind) ?_
    rw [slot_set ha, if_neg hne]
    exact (hw.todo q (.tail _ hq)).2
  · rintro rfl i hi kind hkind
    rw [slot_set ha]
    split
    case isTrue => simp
    case isFalse hne =>
      have hmem : (i, kind) ∈ done ++ [p] :=
        hslots ▸ mem_slots.2 ⟨hn ▸ hi, (hperm kind).2 hkind⟩
      rcases List.mem_append.1 hmem with h | h
      · rw [hw.done _ h]
        simp
      · obtain rfl : (i, kind) = p := by simpa using h
        exact absurd ⟨rfl, rfl⟩ hne

/-- The next slot gets its object. -/
theorem Built.set_object (hnd : kinds.Nodup) (hperm : ∀ kind, kind ∈ kinds ↔ kind ∈ order)
    (hw : Built order done (p :: todo) w) (hn : w.numDevices = n) :
    Built order (done ++ [p]) todo
      (World.set { w with log := w.log ++ [.acquire (.slot p.2 p.1)] } p.1 p.2
        (.object (.slot p.2 p.1))) := by
  obtain ⟨ha, hslot⟩ := hw.todo p (.head _)
  obtain ⟨hi, hkind⟩ := mem_slots.1 (hslots ▸ by simp : p ∈ slots kinds n)
  have hslots' : (slots kinds n).Nodup := List.nodup_range.product hnd
  have hset := slot_set (w := { w with log := w.log ++ [.acquire (.slot p.2 p.1)] }) (i := p.1)
    (h := .object (.slot p.2 p.1)) ha
  refine ⟨hw.inv.set_object ha hslot (hn ▸ hi) ((hperm p.2).1 hkind) id, hw.context, hw.program,
    fun q hq => ?_, fun q hq => ?_⟩
  · rw [hset]
    split
    case isTrue heq => rw [heq.1, heq.2]
    case isFalse hne =>
      rcases List.mem_append.1 hq with hq | hq
      · exact hw.done q hq
      · obtain rfl : q = p := by simpa using hq
        exact absurd ⟨rfl, rfl⟩ hne
  · have hne : ¬(q.1 = p.1 ∧ q.2 = p.2) := fun h => by
      obtain rfl : q = p := Prod.ext h.1 h.2
      rw [hslots] at hslots'
      exact (List.nodup_cons.1 (List.nodup_append.1 hslots').2.1).1 hq
    rw [arrays_set, hset, if_neg hne]
    exact hw.todo q (.tail _ hq)

end

theorem meets_creates (hk : kinds.Nodup) (ho : order.Nodup)
    (hperm : ∀ kind, kind ∈ kinds ↔ kind ∈ order) (hw : Built order [] (slots kinds n) w)
    (hn : w.numDevices = n) :
    Meets ((List.range n).forM fun i => kinds.forM (createSlot order env i)) w
      (fun _ w' => Built order (slots kinds n) [] w' ∧ w'.numDevices = n ∧
        firstFailure env (createCalls kinds n) = none)
      (Fails env (createCalls kinds n) (Midway kinds n) InitLeak) := by
  have hloop : ((List.range n).forM fun i => kinds.forM (createSlot order env i)) =
      (slots kinds n).forM fun p => createSlot order env p.1 p.2 := by
    rw [slots, List.product, forM_flatMap]
    congr 1
    funext i
    rw [List.forM_eq_forM, List.forM_eq_forM, List.forM_map]
  rw [hloop]
  refine (meets_forM (I := fun done todo w => Built order done todo w ∧ w.numDevices = n ∧
    ∀ p ∈ done, env.status (.create p.2 p.1) = 0) ?_ ⟨hw, hn, by simp⟩).mono ?_ fun _ _ hX => hX
  · rintro done p todo hslots w ⟨hw, hn, hok⟩
    obtain ⟨ha, hslot⟩ := hw.todo p (.head _)
    refine meets_bind (meets_newObject (fun h => ?_) fun h => ?_)
    · refine meets_bind (meets_modify (meets_checkError_of_ok h
        ⟨hw.set_object hslots hk hperm hn, hn, fun q hq => ?_⟩))
      rcases List.mem_append.1 hq with hq | hq
      · exact hok q hq
      · obtain rfl : q = p := by simpa using hq
        exact h
    · refine meets_bind (meets_modify ?_)
      refine meets_checkError_of_fail (hw.inv.set_null ha hslot) ho h ?_ ?_ fun o => ?_
      · rw [createCalls, hslots, List.map_append, firstFailure_append_of_ok]
        · exact firstFailure_cons_of_fail h
        · intro c hc
          obtain ⟨q, hq, rfl⟩ := List.mem_map.1 hc
          exact hok q hq
      · rw [midway_iff hslots hk, hw.ready_set_null hslots hk hperm hn]
      · simp [InitLeak]
  · rintro _ w' ⟨hw', hn', hok⟩
    refine ⟨hw', hn', firstFailure_eq_none_iff.2 fun c hc => ?_⟩
    obtain ⟨p, hp, rfl⟩ := List.mem_map.1 hc
    exact hok p hp

end

/-! ## `init_opencl` -/

/-- The calls up to the context, while none of them fails. -/
def openCalls (env : Env) : List Call :=
  if env.cwd then
    .findPlatform :: if env.platform then [.getDevices, .getNames, .createContext] else []
  else []

def objectCalls (kinds : List Kind) (env : Env) : List Call :=
  .loadBinary :: .createProgram ::
    ((List.range env.devices).map .binaryStatus ++ .buildProgram :: createCalls kinds env.devices)

/-- The platform is there, and it has a device. -/
def Found (env : Env) : Prop := (env.cwd && env.platform) = true ∧ env.devices ≠ 0

instance (env : Env) : Decidable (Found env) := inferInstanceAs (Decidable (_ ∧ _))

/-- The calls that `init_opencl` makes while none of them fails. -/
def initCalls (kinds : List Kind) (env : Env) : List Call :=
  openCalls env ++ if Found env then objectCalls kinds env else []

/-- The platform opens but has no device: `device[0]` is read all the same. -/
def NoDevice (env : Env) : Prop :=
  (env.cwd && env.platform) = true ∧ env.devices = 0 ∧ firstFailure env (openCalls env) = none

section
variable {kinds order : List Kind} {n : Nat} {env : Env} {E : Object → Prop} {w : World} {c : Call}

theorem mem_openCalls (hc : c ∈ openCalls env) :
    c ∈ [Call.findPlatform, .getDevices, .getNames, .createContext] := by
  unfold openCalls at hc
  split at hc
  case isFalse => cases hc
  case isTrue =>
    split at hc
    case isFalse => exact List.mem_append_left _ hc
    case isTrue => exact hc

theorem not_midway (h : ∀ kind i, c ≠ .create kind i) : ¬Midway kinds n c := by
  rintro ⟨hc, -⟩
  obtain ⟨p, -, rfl⟩ := List.mem_map.1 hc
  exact h _ _ rfl

/-- Before the arrays are there. -/
theorem inv_of_arrays_eq (ha : w.arrays = fun _ => none)
    (hc : w.context = .null ∨ w.context = .object .context)
    (hp : w.program = .null ∨ w.program = .object .program) (hE : ∀ o, E o → ¬Stored w o)
    (hlog : Holds w.log fun o => E o ∨ Stored w o) : Inv order E w := by
  have hslot : ∀ i kind, w.slot i kind = .null := fun i kind => by simp [World.slot, ha]
  exact ⟨hc, hp, fun i kind => .inr (.inl (hslot i kind)),
    fun i kind h => by simp [Stored, hslot] at h, hE, hlog⟩

theorem ready_of_arrays_eq (ha : w.arrays = fun _ => none) : Ready order w :=
  fun i _ kind _ => by simp [World.slot, ha]

/-- Before the arrays are there `cleanup` skips them, so a failed call exits. -/
theorem meets_check_of_arrays_eq {calls : List Call} {α : Type} {k : Host α}
    {Q : α → World → Prop} (ho : order.Nodup) (ha : w.arrays = fun _ => none)
    (hw : Inv order E w) (hc : ∀ kind i, c ≠ .create kind i) (hleak : ∀ o, E o ↔ InitLeak c o)
    (hk : env.status c = 0 → Meets k w Q (Fails env calls (Midway kinds n) InitLeak)) :
    Meets (checkError order (env.status c) >>= fun _ => k) w Q
      (Fails env (c :: calls) (Midway kinds n) InitLeak) :=
  meets_check hw ho (iff_of_false (not_midway hc) (not_not_intro (ready_of_arrays_eq ha))) hleak hk

theorem inv_null : Inv order (fun _ => False) ⟨n, .null, .null, fun _ => none, []⟩ :=
  inv_of_arrays_eq rfl (.inl rfl) (.inl rfl) (fun _ h => h.elim)
    (holds_nil.congr fun o => by cases o <;> simp [Stored, World.slot])

theorem inv_context : Inv order (fun _ => False)
    ⟨n, .object .context, .null, fun _ => none, [.acquire .context]⟩ :=
  inv_of_arrays_eq rfl (.inr rfl) (.inl rfl) (fun _ h => h.elim)
    ((holds_nil.acquire id).congr fun o => by cases o <;> simp [Stored, World.slot])

theorem holds_both : Holds [.acquire .context, .acquire .program] fun o : Object =>
    o = .context ∨ o = .program :=
  ((holds_nil.acquire (x := Object.context) id).acquire (x := Object.program) (by simp)).congr
    fun o => by simp

/-- The program is still a local of `createProgramFromBinary`. -/
theorem inv_local : Inv order (· = .program) ⟨n, .object .context, .null, fun _ => none,
    [.acquire .context, .acquire .program]⟩ :=
  inv_of_arrays_eq rfl (.inr rfl) (.inl rfl) (fun o h => by simp [h, Stored])
    (holds_both.congr fun o => by cases o <;> simp [Stored, World.slot])

theorem inv_both : Inv order (fun _ => False) ⟨n, .object .context, .object .program,
    fun _ => none, [.acquire .context, .acquire .program]⟩ :=
  inv_of_arrays_eq rfl (.inr rfl) (.inr rfl) (fun o h => h.elim)
    (holds_both.congr fun o => by cases o <;> simp [Stored, World.slot])

/-- The arrays are allocated, and no object is in them yet. -/
theorem Built.resets (ha : w.arrays = fun _ => none) (hc : w.context = .object .context)
    (hp : w.program = .object .program)
    (hlog : Holds w.log fun o => o = .context ∨ o = .program) :
    Built order [] (slots kinds n) (kinds.foldl World.reset w) := by
  have hslot : ∀ i kind, (kinds.foldl World.reset w).slot i kind =
      if kind ∈ kinds then .uninitialised else .null := fun i kind => by
    rw [World.slot, arrays_resets, ha]
    by_cases hkind : kind ∈ kinds <;> simp [hkind]
  rw [resets_eq] at hslot ⊢
  have hst : ∀ o, Stored { w with arrays := (kinds.foldl World.reset w).arrays } o ↔
      o = .context ∨ o = .program := fun o => by
    cases o with
    | context => simp [Stored, hc]
    | program => simp [Stored, hp]
    | slot kind i =>
      simp only [Stored, hslot]
      split <;> simp
    | event i e => simp [Stored]
    | buffer b => simp [Stored]
  refine ⟨⟨.inr hc, .inr hp, fun i kind => ?_, fun i kind h => ?_, fun _ h => h.elim, ?_⟩, hc, hp,
    by simp, fun p hp => ?_⟩
  · rw [hslot]
    split <;> simp
  · exact absurd ((hst _).1 h) (by simp)
  · exact hlog.congr fun o => by rw [hst, false_or]
  · obtain ⟨-, hkind⟩ := mem_slots.1 hp
    rw [hslot, if_pos hkind, arrays_resets, if_pos hkind]
    exact ⟨rfl, rfl⟩

/-- What is stored once `init_opencl` has returned true. -/
theorem Built.stored_iff (hw : Built order (slots kinds n) [] w)
    (hperm : ∀ kind, kind ∈ kinds ↔ kind ∈ order) (hn : w.numDevices = n) {o : Object} :
    Stored w o ↔ o = .context ∨ o = .program ∨ ∃ p ∈ slots kinds n, o = .slot p.2 p.1 := by
  constructor
  · intro h
    cases o with
    | context => exact .inl rfl
    | program => exact .inr (.inl rfl)
    | slot kind i =>
      obtain ⟨hi, hkind⟩ := hw.inv.range i kind h
      exact .inr (.inr ⟨(i, kind), mem_slots.2 ⟨hn ▸ hi, (hperm kind).2 hkind⟩, rfl⟩)
    | event i e => exact h.elim
    | buffer b => exact h.elim
  · rintro (rfl | rfl | ⟨p, hp, rfl⟩)
    · exact hw.context
    · exact hw.program
    · exact hw.done p hp

theorem meets_openContext (ho : order.Nodup) :
    Meets (openContext order env) World.init
      (fun r w => firstFailure env (openCalls env) = none ∧ r = (env.cwd && env.platform) ∧
        (r = false → w.arrays = (fun _ => none) ∧ w.log = []) ∧
          (r = true → w = ⟨env.devices, .object .context, .null, fun _ => none,
            [.acquire .context]⟩))
      (Fails env (openCalls env) (Midway kinds env.devices) InitLeak) := by
  unfold openContext openCalls
  cases env.cwd with
  | false => exact meets_pure ⟨rfl, rfl, fun _ => ⟨rfl, rfl⟩, nofun⟩
  | true =>
    rw [if_pos rfl]
    refine meets_check_of_arrays_eq ho rfl inv_null nofun (by simp [InitLeak]) fun hplat => ?_
    cases env.platform with
    | false => exact meets_pure ⟨firstFailure_cons_of_ok hplat, rfl, fun _ => ⟨rfl, rfl⟩, nofun⟩
    | true =>
      rw [if_pos rfl]
      refine meets_bind (meets_modify ?_)
      refine meets_check_of_arrays_eq ho rfl inv_null nofun (by simp [InitLeak]) fun hdev => ?_
      refine meets_check_of_arrays_eq ho rfl inv_null nofun (by simp [InitLeak]) fun hname => ?_
      refine meets_bind (meets_newObject (fun hctx => ?_) fun hctx => ?_)
      · refine meets_bind (meets_modify (meets_check_of_ok hctx (meets_pure ?_)))
        refine ⟨?_, rfl, nofun, fun _ => rfl⟩
        rw [firstFailure_cons_of_ok hplat, firstFailure_cons_of_ok hdev,
          firstFailure_cons_of_ok hname, firstFailure_cons_of_ok hctx]
        rfl
      · refine meets_bind (meets_modify ?_)
        exact meets_check_of_arrays_eq ho rfl inv_null nofun (by simp [InitLeak])
          fun h => absurd h hctx

theorem meets_createObjects (hk : kinds.Nodup) (ho : order.Nodup)
    (hperm : ∀ kind, kind ∈ kinds ↔ kind ∈ order) :
    Meets (createObjects kinds order env)
      ⟨env.devices, .object .context, .null, fun _ => none, [.acquire .context]⟩
      (fun _ w => firstFailure env (objectCalls kinds env) = none ∧
        Built order (slots kinds env.devices) [] w ∧ w.numDevices = env.devices)
      (Fails env (objectCalls kinds env) (Midway kinds env.devices) InitLeak) := by
  unfold createObjects createProgramFromBinary
  simp only [bind_assoc, pure_bind]
  refine meets_check_of_arrays_eq ho rfl inv_context nofun (by simp [InitLeak]) fun hbin => ?_
  refine meets_bind (meets_newObject (fun hprog => ?_) fun hprog => ?_)
  · refine meets_check_of_ok hprog (meets_checks inv_local ho (fun i _ => iff_of_false
      (not_midway nofun) (not_not_intro (ready_of_arrays_eq rfl))) (by simp [InitLeak])
        fun hbins => ?_)
    refine meets_bind (meets_modify (meets_check_of_arrays_eq ho rfl inv_both nofun
      (by simp [InitLeak]) fun hbuild => ?_))
    refine meets_bind (meets_modify ((meets_creates hk ho hperm
      (Built.resets rfl rfl rfl holds_both) ?_).mono ?_ fun _ _ hX => hX))
    · rw [resets_eq]
    · rintro _ w ⟨hw, hn, hall⟩
      refine ⟨?_, hw, hn⟩
      rw [objectCalls, firstFailure_cons_of_ok hbin, firstFailure_cons_of_ok hprog,
        firstFailure_append_of_ok (by simpa using hbins), firstFailure_cons_of_ok hbuild, hall]
  · exact meets_check_of_arrays_eq ho rfl inv_context nofun (by simp [InitLeak])
      fun h => absurd h hprog

theorem meets_initOpencl (hk : kinds.Nodup) (ho : order.Nodup)
    (hperm : ∀ kind, kind ∈ kinds ↔ kind ∈ order) :
    Meets (initOpencl kinds order env) World.init
      (fun r w => firstFailure env (initCalls kinds env) = none ∧ r = decide (Found env) ∧
        (r = false → (env.cwd && env.platform) = false ∧ w.arrays = (fun _ => none) ∧ w.log = []) ∧
          (r = true → Built order (slots kinds env.devices) [] w ∧ w.numDevices = env.devices))
      (fun e w => Fails env (initCalls kinds env) (Midway kinds env.devices) InitLeak e w ∨
        NoDevice env ∧ e = .undefined ∧ Holds w.log (· = .context)) := by
  unfold initOpencl initCalls
  refine meets_bind ((meets_openContext ho).mono ?_ fun e w hX => .inl
    (hX.mono (fun _ _ => Iff.rfl) (fun _ _ _ => Iff.rfl) _))
  rintro r w ⟨hopen, rfl, hfalse, htrue⟩
  cases hfound : env.cwd && env.platform with
  | false =>
    have hno : ¬Found env := fun h => Bool.false_ne_true (hfound.symm.trans h.1)
    rw [if_neg hno, List.append_nil]
    exact meets_pure ⟨hopen, (decide_eq_false hno).symm, fun _ => ⟨rfl, hfalse hfound⟩, nofun⟩
  | true =>
    obtain rfl := htrue hfound
    simp only [Bool.not_true, Bool.false_eq_true, if_false]
    by_cases hn : env.devices = 0
    · rw [if_pos hn]
      refine meets_bind (meets_throw (.inr ⟨⟨hfound, hn, hopen⟩, rfl, ?_⟩))
      exact (holds_nil.acquire id).congr fun o => by rw [false_or]
    · rw [if_neg hn, if_pos ⟨hfound, hn⟩]
      refine meets_bind ((meets_createObjects hk ho hperm).mono ?_ fun e w hX =>
        .inl (hX.append_of_ok hopen))
      rintro _ w ⟨hall, hw⟩
      refine meets_pure ⟨?_, (decide_eq_true ⟨hfound, hn⟩).symm, nofun, fun _ => hw⟩
      rw [firstFailure_append_of_ok (firstFailure_eq_none_iff.1 hopen), hall]

end

end Aocl
