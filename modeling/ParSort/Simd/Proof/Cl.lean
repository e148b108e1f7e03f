import ParSort.Conc.Proof.Queue
import ParSort.Simd.Cl
import ParSort.Simd.Proof.Run

/-!
# `cl_run`

The events of `cl_run` order the commands of one device as far as they touch the same cells, and the
devices share none (`clCalls_ordered`): every run of the host and the devices, on queues in order or
not, leaves the sums (`clRun_sums`). `clRun_reaches` is what holds on the way.
-/

namespace Simd

open Conc Machine

variable {add : F32 → F32 → F32}

/-! ## Transfers and work-items -/

/-- The cells of element `j` of a vector and of its buffer. -/
def Both (v : Int → Cell) (j : Int) : Set ClCell := {.host (v j), .buffer (v j)}

section
variable {v : Int → Cell} (hv : Function.Injective v) {n : Nat} (M : Mem ClCell F32)
include hv

theorem pairwise_both (n : Nat) :
    (List.range n).Pairwise fun i j : Nat => Disjoint (Both v i) (Both v j) := by
  refine List.nodup_range.imp fun {i j} hij => ?_
  have hne : v i ≠ v j := fun h => hij (by simpa using hv h)
  rw [Set.disjoint_left]
  rintro c (rfl | rfl) (h | h)
  · exact hne (ClCell.host.inj h)
  · cases h
  · cases h
  · exact hne (ClCell.buffer.inj h)

theorem writeBuffer_buffer {j : Nat} (hj : j < n) :
    (writeBuffer v n).exec M (.buffer (v j)) = M (.host (v j)) := by
  have hw : ∀ x ∈ List.range n, (Prog.copy (.host (v x)) (.buffer (v x)) : Prog ClCell F32).Within
      (Both v x) := fun _ _ => Prog.within_copy.2 ⟨.inl rfl, .inr rfl⟩
  rw [writeBuffer, Prog.exec_forEach_at (pairwise_both hv n) hw (List.mem_range.2 hj) (.inr rfl),
    Prog.exec_copy, Function.update_self]

theorem readBuffer_host {j : Nat} (hj : j < n) :
    (readBuffer v n).exec M (.host (v j)) = M (.buffer (v j)) := by
  have hw : ∀ x ∈ List.range n, (Prog.copy (.buffer (v x)) (.host (v x)) : Prog ClCell F32).Within
      (Both v x) := fun _ _ => Prog.within_copy.2 ⟨.inr rfl, .inl rfl⟩
  rw [readBuffer, Prog.exec_forEach_at (pairwise_both hv n) hw (List.mem_range.2 hj) (.inl rfl),
    Prog.exec_copy, Function.update_self]

end

section
variable {v : Int → Cell} {n : Nat} (M : Mem ClCell F32) {c : ClCell}

theorem writeBuffer_frame (h : ∀ j : Nat, j < n → c ≠ .buffer (v j)) :
    (writeBuffer v n).exec M c = M c := by
  refine Prog.exec_forEach_induction (I := fun m => m c = M c) (fun j hj m hm => ?_) rfl
  rwa [Prog.exec_copy, Function.update_of_ne (h j (List.mem_range.1 hj))]

theorem readBuffer_frame (h : ∀ j : Nat, j < n → c ≠ .host (v j)) :
    (readBuffer v n).exec M c = M c := by
  refine Prog.exec_forEach_induction (I := fun m => m c = M c) (fun j hj m hm => ?_) rfl
  rwa [Prog.exec_copy, Function.update_of_ne (h j (List.mem_range.1 hj))]

end

/-- The cells of a work-item. -/
def Item (i : Nat) (j : Int) : Set ClCell :=
  {.buffer (.inputA i j), .buffer (.inputB i j), .buffer (.output i j)}

theorem vectorAdd_within {i j : Nat} (hj : j < 2 ^ 31) : (vectorAdd add i j).Within (Item i j) := by
  rw [vectorAdd, wrap32_of_lt hj]
  exact ⟨.inl rfl, fun _ => ⟨.inr (.inl rfl), fun _ => ⟨.inr (.inr rfl), trivial⟩⟩⟩

theorem pairwise_item (i n : Nat) :
    (List.range n).Pairwise fun j k : Nat => Disjoint (Item i j) (Item i k) := by
  refine List.nodup_range.imp fun {j k} hjk => ?_
  rw [Set.disjoint_left]
  rintro c (rfl | rfl | rfl) (h | h | h)
  all_goals first
    | cases h; done
    | exact hjk (by simpa using h)

section
variable {i n : Nat} (hn : n ≤ 2 ^ 31)
include hn

theorem ndRange_raceFree : (ndRange add i n).RaceFree :=
  Prog.raceFree_parEach (pairwise_item i n)
    (fun j hj => vectorAdd_within (by have := List.mem_range.1 hj; omega))
    fun j _ _ _ => trivial

theorem ndRange_output (M : Mem ClCell F32) {j : Nat} (hj : j < n) :
    (ndRange add i n).exec M (.buffer (.output i j)) =
      add (M (.buffer (.inputA i j))) (M (.buffer (.inputB i j))) := by
  have hw : ∀ x ∈ List.range n, (vectorAdd add i x).Within (Item i x) := fun x hx =>
    vectorAdd_within (by have := List.mem_range.1 hx; omega)
  rw [ndRange, Prog.exec_parEach, Prog.exec_forEach_at (pairwise_item i n) hw
    (List.mem_range.2 hj) (.inr (.inr rfl)), vectorAdd, wrap32_of_lt (by omega)]
  exact Function.update_self _ _ _

theorem ndRange_frame (M : Mem ClCell F32) {c : ClCell}
    (h : ∀ j : Nat, j < n → c ≠ .buffer (.output i j)) : (ndRange add i n).exec M c = M c := by
  rw [ndRange, Prog.exec_parEach]
  refine Prog.exec_forEach_induction (I := fun m => m c = M c) (fun j hj m hm => ?_) rfl
  have hlt := List.mem_range.1 hj
  rw [vectorAdd, wrap32_of_lt (by omega)]
  simpa only [Prog.exec, Function.update_of_ne (h j hlt)] using hm

end

/-! ## One device -/

def Cell.device : Cell → Nat
  | inputA i _ => i
  | inputB i _ => i
  | output i _ => i

def ClCell.device : ClCell → Nat
  | host c => c.device
  | refOutput i _ => i
  | buffer c => c.device

/-- The cells of device `i` and of its share of the vectors. -/
def OfDevice (i : Nat) : Set ClCell := {c | c.device = i}

theorem disjoint_ofDevice {i i' : Nat} (h : i ≠ i') : Disjoint (OfDevice i) (OfDevice i') :=
  Set.disjoint_left.2 fun _ hc hc' => h (hc.symm.trans hc')

theorem inputA_injective (i : Nat) : Function.Injective (Cell.inputA i) := fun _ _ h => by
  injection h

theorem inputB_injective (i : Nat) : Function.Injective (Cell.inputB i) := fun _ _ h => by
  injection h

theorem output_injective (i : Nat) : Function.Injective (Cell.output i) := fun _ _ h => by
  injection h

/-- The cells of a vector and of its buffer. -/
def Vector (v : Int → Cell) : Set ClCell := {c | ∃ j, c = .host (v j) ∨ c = .buffer (v j)}

theorem writeBuffer_within (v : Int → Cell) (n : Nat) : (writeBuffer v n).Within (Vector v) :=
  Prog.within_forEach.2 fun j _ => Prog.within_copy.2 ⟨⟨j, .inl rfl⟩, j, .inr rfl⟩

theorem readBuffer_within (v : Int → Cell) (n : Nat) : (readBuffer v n).Within (Vector v) :=
  Prog.within_forEach.2 fun j _ => Prog.within_copy.2 ⟨⟨j, .inr rfl⟩, j, .inl rfl⟩

theorem vector_subset {v : Int → Cell} {i : Nat} (h : ∀ j, (v j).device = i) :
    Vector v ⊆ OfDevice i := by
  rintro c ⟨j, rfl | rfl⟩
  · exact h j
  · exact h j

theorem ndRange_within (i n : Nat) : (ndRange add i n).Within (OfDevice i) :=
  Prog.within_parEach.2 fun _ _ => ⟨rfl, fun _ => ⟨rfl, fun _ => ⟨rfl, trivial⟩⟩⟩

theorem launchDevice_within {i n : Nat} {call : Queue.Call ClCell F32}
    (h : call ∈ launchDevice add i n) : call.prog.Within (OfDevice i) := by
  simp only [launchDevice, List.mem_cons, List.not_mem_nil, or_false] at h
  obtain rfl | rfl | rfl | rfl := h
  · exact (writeBuffer_within _ n).mono (vector_subset fun _ => rfl)
  · exact (writeBuffer_within _ n).mono (vector_subset fun _ => rfl)
  · exact ndRange_within i n
  · exact (readBuffer_within _ n).mono (vector_subset fun _ => rfl)

/-- The command of a call, its queue and what it waits for. -/
theorem exists_command (add : F32 → F32 → F32) (i m : Nat) {r : Nat} (hr : r < 4) :
    ∃ c, (launchDevice add i m)[r]? = some (.enqueue c) ∧ c.queue = i ∧
      ∀ j ∈ c.waitList, j % 4 ≠ 3 := by
  obtain rfl | rfl | rfl | rfl : r = 0 ∨ r = 1 ∨ r = 2 ∨ r = 3 := by omega
  · exact ⟨_, rfl, rfl, nofun⟩
  · exact ⟨_, rfl, rfl, nofun⟩
  · refine ⟨_, rfl, rfl, ?_⟩
    simp only [List.mem_cons, List.not_mem_nil, or_false, writeEvent, forall_eq_or_imp, forall_eq]
    omega
  · refine ⟨_, rfl, rfl, ?_⟩
    simp only [List.mem_cons, List.not_mem_nil, or_false, kernelEvent, forall_eq]
    omega

/-- The commands of a device, one after another. -/
def deviceProg (add : F32 → F32 → F32) (i n : Nat) : Prog ClCell F32 :=
  (writeBuffer (.inputA i) n).seq ((writeBuffer (.inputB i) n).seq
    ((ndRange add i n).seq (readBuffer (.output i) n)))

theorem deviceProg_within (i n : Nat) : (deviceProg add i n).Within (OfDevice i) := by
  have h : ∀ call ∈ launchDevice add i n, call.prog.Within (OfDevice i) :=
    fun _ => launchDevice_within
  simp only [launchDevice, List.forall_mem_cons] at h
  obtain ⟨h1, h2, h3, h4, -⟩ := h
  exact Prog.within_seq.2 ⟨h1, Prog.within_seq.2 ⟨h2, Prog.within_seq.2 ⟨h3, h4⟩⟩⟩

section
variable {i n : Nat} (hn : n ≤ 2 ^ 31) (M : Mem ClCell F32)
include hn

theorem deviceProg_output {j : Nat} (hj : j < n) :
    (deviceProg add i n).exec M (.host (.output i j)) =
      add (M (.host (.inputA i j))) (M (.host (.inputB i j))) := by
  simp only [deviceProg, Prog.exec_seq]
  rw [readBuffer_host (output_injective i) _ hj, ndRange_output hn _ hj,
    writeBuffer_buffer (inputB_injective i) _ hj,
    writeBuffer_frame (c := .buffer (.inputA i j)) _ (by simp),
    writeBuffer_frame (c := .host (.inputB i j)) _ (by simp),
    writeBuffer_buffer (inputA_injective i) _ hj]

theorem deviceProg_frame {c : ClCell} (hc : ∀ b, c ≠ .buffer b)
    (h : ∀ j : Nat, j < n → c ≠ .host (.output i j)) : (deviceProg add i n).exec M c = M c := by
  simp only [deviceProg, Prog.exec_seq]
  rw [readBuffer_frame _ h, ndRange_frame hn _ fun j _ => hc _, writeBuffer_frame _ fun j _ => hc _,
    writeBuffer_frame _ fun j _ => hc _]

end

/-! ## The calls -/

theorem getElem?_flatMap_range {α : Type} {f : Nat → List α} {c : Nat} (hf : ∀ i, (f i).length = c)
    {k i r : Nat} (hi : i < k) (hr : r < c) :
    ((List.range k).flatMap f)[c * i + r]? = (f i)[r]? := by
  have hlen : ∀ k, ((List.range k).flatMap f).length = c * k := fun k => by
    simp [List.length_flatMap, hf, Nat.mul_comm]
  induction k with
  | zero => exact absurd hi (Nat.not_lt_zero i)
  | succ k ih =>
    rw [List.range_succ, List.flatMap_append]
    have hik : c * i + r < c * (i + 1) := by
      rw [Nat.mul_succ]
      exact Nat.add_lt_add_left hr _
    rcases Nat.eq_or_lt_of_le (Nat.le_of_lt_succ hi) with rfl | hlt
    · rw [List.getElem?_append_right (by rw [hlen]; exact Nat.le_add_right _ _), hlen]
      simp
    · rw [List.getElem?_append_left (by
        rw [hlen]
        exact Nat.lt_of_lt_of_le hik (Nat.mul_le_mul_left c hlt)), ih hlt]

/-- The calls of `cl_run`, with a wait for `events` at the end. -/
def clCalls (add : F32 → F32 → F32) (numDevices : Nat) (n : Nat → Nat) (events : List Nat) :
    List (Queue.Call ClCell F32) :=
  ((List.range numDevices).flatMap fun i => launchDevice add i (n i)) ++ [.waitForEvents events]

section
variable {numDevices : Nat} {n : Nat → Nat} {events : List Nat}

theorem length_launches :
    ((List.range numDevices).flatMap fun i => launchDevice add i (n i)).length =
      4 * numDevices := by
  simp [List.length_flatMap, launchDevice, Nat.mul_comm]

theorem clCalls_length : (clCalls add numDevices n events).length = 4 * numDevices + 1 := by
  rw [clCalls, List.length_append, length_launches, List.length_singleton]

/-- Call `r` for device `i`. -/
theorem clCalls_getElem? {i r : Nat} (hi : i < numDevices) (hr : r < 4) :
    (clCalls add numDevices n events)[4 * i + r]? = (launchDevice add i (n i))[r]? := by
  rw [clCalls, List.getElem?_append_left (by rw [length_launches]; omega)]
  exact getElem?_flatMap_range (c := 4) (fun _ => rfl) hi hr

theorem clCalls_last : (clCalls add numDevices n events)[4 * numDevices]? =
    some (.waitForEvents events) := by
  rw [clCalls, List.getElem?_append_right (by rw [length_launches]), length_launches, Nat.sub_self]
  rfl

theorem clCalls_wellFormed {inOrder : Bool} (he : ∀ j ∈ events, j < 4 * numDevices) :
    Queue.WellFormed inOrder (clCalls add numDevices n events) := by
  refine Queue.wellFormed_of_eventsBefore (Queue.eventsBefore_append.2 ⟨?_, ?_⟩)
  · clear he
    induction numDevices with
    | zero => trivial
    | succ k ih =>
      rw [List.range_succ, List.flatMap_append, List.flatMap_singleton]
      refine Queue.eventsBefore_append.2 ⟨ih, ?_⟩
      rw [length_launches]
      refine ⟨nofun, nofun, fun j hj => ?_, fun j hj => ?_, trivial⟩
      · simp only [Queue.Call.events, List.mem_cons, List.not_mem_nil, or_false, writeEvent] at hj
        omega
      · simp only [Queue.Call.events, List.mem_cons, List.not_mem_nil, or_false, kernelEvent] at hj
        omega
  · rw [length_launches, Nat.zero_add]
    exact ⟨he, trivial⟩

theorem exists_place {k j : Nat} (hj : j < 4 * k) : ∃ i < k, ∃ r < 4, j = 4 * i + r :=
  ⟨j / 4, by omega, j % 4, Nat.mod_lt j (by decide), by omega⟩

/-- Every command is one of the four of some device. -/
theorem exists_device {k : Nat} (hk : (Queue.command? (clCalls add numDevices n events) k).isSome) :
    ∃ i < numDevices, ∃ r < 4, k = 4 * i + r := by
  have hlt : k < 4 * numDevices := by
    by_contra hge
    rcases Nat.eq_or_lt_of_le (Nat.not_lt.1 hge) with rfl | hlt
    · simp [Queue.command?, clCalls_last] at hk
    · rw [Queue.command?_eq_none (by rw [clCalls_length]; omega)] at hk
      cases hk
  exact exists_place hlt

section
variable {inOrder : Bool} {i : Nat} (hi : i < numDevices)
include hi

theorem command?_clCalls {r : Nat} (hr : r < 4) {c : Queue.Command ClCell F32}
    (h : (launchDevice add i (n i))[r]? = some (.enqueue c)) :
    Queue.command? (clCalls add numDevices n events) (4 * i + r) = some c := by
  rw [Queue.command?, clCalls_getElem? hi hr, h]

theorem progAt_within {r : Nat} (hr : r < 4) :
    (Queue.progAt (clCalls add numDevices n events) (4 * i + r)).Within (OfDevice i) := by
  rw [Queue.progAt, clCalls_getElem? hi hr]
  split
  · exact launchDevice_within (List.mem_of_getElem? ‹_›)
  · trivial

/-- The kernel waits for both writes, -/
theorem before_kernel {w : Nat} (hw : w < 2) :
    Queue.Before inOrder (clCalls add numDevices n events) (writeEvent i w) (kernelEvent i) := by
  refine .command ⟨_, command?_clCalls hi (r := 2) (by decide) rfl, .inl ?_⟩
  obtain rfl | rfl : w = 0 ∨ w = 1 := by omega
  · exact .head _
  · exact .tail _ (.head _)

/-- the read for the kernel, -/
theorem before_finish :
    Queue.Before inOrder (clCalls add numDevices n events) (kernelEvent i) (finishEvent i) :=
  .command ⟨_, command?_clCalls hi (r := 3) (by decide) rfl, .inl (.head _)⟩

/-- and so for every command of its device. -/
theorem before_read {r : Nat} (hr : r < 3) :
    Queue.Before inOrder (clCalls add numDevices n events) (4 * i + r) (finishEvent i) := by
  obtain hr | rfl : r < 2 ∨ r = 2 := by omega
  · exact (before_kernel hi hr).trans (before_finish hi)
  · exact before_finish hi

end

/-- The two writes to a device are the only commands of it that run at the same time. -/
theorem clCalls_ordered {inOrder : Bool} :
    Queue.Ordered inOrder (clCalls add numDevices n events) := by
  intro k j hjk hk
  obtain ⟨i', hi', r', hr', rfl⟩ := exists_device hk
  obtain ⟨i, hi, r, hr, rfl⟩ := exists_place (k := numDevices) (j := j) (by omega)
  by_cases hii : i = i'
  · subst hii
    by_cases hwrites : r' = 1
    · obtain rfl : r = 0 := by omega
      subst hwrites
      refine .inr ⟨Vector (.inputA i), Vector (.inputB i), ?_, ?_, ?_⟩
      · rw [Set.disjoint_left]
        rintro c ⟨j, rfl | rfl⟩ ⟨j', h | h⟩ <;> cases h
      · rw [Queue.progAt, clCalls_getElem? hi hr]
        exact writeBuffer_within _ _
      · rw [Queue.progAt, clCalls_getElem? hi hr']
        exact writeBuffer_within _ _
    · obtain rfl | rfl : r' = 2 ∨ r' = 3 := by omega
      · exact .inl (before_kernel hi (by omega))
      · exact .inl (before_read hi (by omega))
  · exact .inr ⟨_, _, disjoint_ofDevice hii, progAt_within hi hr, progAt_within hi' hr'⟩

/-! ## Every run -/

theorem clRun_wellFormed {inOrder : Bool} :
    Queue.WellFormed inOrder (clRun add numDevices n) := by
  refine clCalls_wellFormed fun j hj => ?_
  obtain ⟨i, hi, rfl⟩ := List.mem_map.1 hj
  have := List.mem_range.1 hi
  rw [finishEvent]
  omega

theorem sequential_clCalls : Queue.sequential (clCalls add numDevices n events) =
    .forEach (List.range numDevices) fun i => deviceProg add i (n i) := by
  rw [Queue.sequential, clCalls, Prog.forEach_append, Prog.forEach_flatMap]
  simp [launchDevice, Queue.Call.prog, deviceProg]

/-- The sums are in `output`, and everything else on the host is as before. -/
def Sums (add : F32 → F32 → F32) (numDevices : Nat) (n : Nat → Nat) (M M' : Mem ClCell F32) :
    Prop :=
  (∀ i < numDevices, ∀ j : Nat, j < n i → M' (.host (.output i j)) =
    add (M (.host (.inputA i j))) (M (.host (.inputB i j)))) ∧
  ∀ c, (∀ b, c ≠ .buffer b) → (∀ i < numDevices, ∀ j : Nat, j < n i → c ≠ .host (.output i j)) →
    M' c = M c

theorem sequential_sums (hn : ∀ i < numDevices, n i ≤ 2 ^ 31) (M : Mem ClCell F32) :
    Sums add numDevices n M ((Queue.sequential (clCalls add numDevices n events)).exec M) := by
  have hdis : (List.range numDevices).Pairwise fun i i' => Disjoint (OfDevice i) (OfDevice i') :=
    List.nodup_range.imp disjoint_ofDevice
  have hw : ∀ i ∈ List.range numDevices, (deviceProg add i (n i)).Within (OfDevice i) :=
    fun i _ => deviceProg_within i (n i)
  rw [sequential_clCalls]
  refine ⟨fun i hi j hj => ?_, fun c hb hout => ?_⟩
  · rw [Prog.exec_forEach_at hdis hw (List.mem_range.2 hi) rfl]
    exact deviceProg_output (hn i hi) M hj
  · refine Prog.exec_forEach_induction (I := fun m => m c = M c) (fun i hi m hm => ?_) rfl
    have hi := List.mem_range.1 hi
    rw [deviceProg_frame (hn i hi) m hb (hout i hi), hm]

theorem sequential_raceFree (hn : ∀ i < numDevices, n i ≤ 2 ^ 31) :
    (Queue.sequential (clCalls add numDevices n events)).RaceFree := by
  rw [sequential_clCalls]
  refine Prog.raceFree_forEach fun i hi => ?_
  have hcopy : ∀ (v : Int → Cell) k, (writeBuffer v k).RaceFree ∧ (readBuffer v k).RaceFree :=
    fun v k => ⟨(Prog.serial_forEach fun _ _ => Prog.serial_copy _ _).raceFree,
      (Prog.serial_forEach fun _ _ => Prog.serial_copy _ _).raceFree⟩
  exact (hcopy _ _).1.seq ((hcopy _ _).1.seq
    ((ndRange_raceFree (hn i (List.mem_range.1 hi))).seq (hcopy _ _).2))

/-- **`cl_run` adds**: with any number of devices and any share for each, on queues that execute in
order or not, every run of the host, the transfers and the work-items is finite, never gets stuck
and leaves the sums in `output`; the rest of the host's memory is untouched. -/
theorem clRun_sums (add : F32 → F32 → F32) (numDevices : Nat) (n : Nat → Nat)
    (hn : ∀ i < numDevices, n i ≤ 2 ^ 31) (inOrder : Bool) (M : Mem ClCell F32) :
    Queue.Always inOrder (clRun add numDevices n) (Sums add numDevices n M)
      (.init (clRun add numDevices n) M) :=
  (Queue.always_iff clRun_wellFormed clCalls_ordered).2
    (Prog.always_of_raceFree (sequential_raceFree hn) (sequential_sums hn M))

theorem clRun_sums_two : Queue.Always false (clRun (fun x _ => x) 2 fun _ => 3)
    (Sums (fun x _ => x) 2 (fun _ => 3) fun _ => ⟨0⟩)
    (.init (clRun (fun x _ => x) 2 fun _ => 3) fun _ => ⟨0⟩) :=
  clRun_sums (fun x _ => x) 2 (fun _ => 3) (fun _ _ => by decide) false _

/-- Past `clWaitForEvents`, which names the reads alone, every command is complete. -/
theorem clRun_waited (hn : ∀ i < numDevices, n i ≤ 2 ^ 31) {inOrder : Bool} {M : Mem ClCell F32}
    {s : Queue.Config ClCell F32}
    (h : Queue.Reaches inOrder (clRun add numDevices n) (.init (clRun add numDevices n) M) s)
    (hpc : 4 * numDevices < s.pc) :
    (∀ k, s.status k = .complete) ∧ Sums add numDevices n M s.mem := by
  have hinv := h.inv (.init M)
  have hread : ∀ i < numDevices, s.status (finishEvent i) = .complete := fun i hi => by
    refine hinv.waited _ _ hpc ?_
    rw [Queue.HostWaits, clRun, ← clCalls, clCalls_last]
    exact List.mem_map_of_mem (List.mem_range.2 hi)
  have hall : ∀ k, s.status k = .complete := fun k => by
    by_cases hk : (Queue.command? (clRun add numDevices n) k).isSome
    · obtain ⟨i, hi, r, hr, rfl⟩ := exists_device hk
      obtain hr | rfl : r < 3 ∨ r = 3 := by omega
      · refine hinv.before (before_read hi hr) ?_
        rw [hread i hi]
        exact nofun
      · exact hread i hi
    · exact hinv.idle k (by simpa using hk)
  have hrun := h.steps_sequential clCalls_ordered hall
  exact ⟨hall, (Prog.always_of_raceFree (sequential_raceFree hn) (sequential_sums hn M)).of_steps
    hrun⟩

/-- **On the way**: in every configuration that a run of `cl_run` reaches, a kernel has started only
after both of its writes were complete, a read only after its kernel; and once the host is past
`clWaitForEvents`, which names the reads alone, every command is complete and the sums are there. -/
theorem clRun_reaches (add : F32 → F32 → F32) (numDevices : Nat) (n : Nat → Nat)
    (hn : ∀ i < numDevices, n i ≤ 2 ^ 31) (inOrder : Bool) (M : Mem ClCell F32)
    (s : Queue.Config ClCell F32)
    (h : Queue.Reaches inOrder (clRun add numDevices n) (.init (clRun add numDevices n) M) s) :
    (∀ i < numDevices, (s.status (kernelEvent i) ≠ .queued →
        ∀ w < 2, s.status (writeEvent i w) = .complete) ∧
      (s.status (finishEvent i) ≠ .queued → s.status (kernelEvent i) = .complete)) ∧
    (4 * numDevices < s.pc → (∀ k, s.status k = .complete) ∧ Sums add numDevices n M s.mem) := by
  have hinv := h.inv (.init M)
  exact ⟨fun i hi => ⟨fun hk w hw => hinv.before (before_kernel hi hw) hk,
    fun hk => hinv.before (before_finish hi) hk⟩, clRun_waited hn h⟩

/-- At the end of a run: there the host is past its wait. -/
theorem clRun_reaches_end : ∃ s : Queue.Config ClCell F32, s.pc = 4 * 2 + 1 ∧
    (∀ i < 2, (s.status (kernelEvent i) ≠ .queued →
        ∀ w < 2, s.status (writeEvent i w) = .complete) ∧
      (s.status (finishEvent i) ≠ .queued → s.status (kernelEvent i) = .complete)) ∧
    (4 * 2 < s.pc → (∀ k, s.status k = .complete) ∧
      Sums (fun x _ => x) 2 (fun _ => 3) (fun _ => ⟨0⟩) s.mem) := by
  have hw : Queue.WellFormed false (clRun (fun x _ => x) 2 fun _ => 3) := clRun_wellFormed
  obtain ⟨s, hs, hf, -⟩ := Queue.reaches_sequential hw (Prog.steps_exec _ fun _ => ⟨0⟩)
  exact ⟨s, hf.1.trans clCalls_length, clRun_reaches (fun x _ => x) 2 (fun _ => 3)
    (fun _ _ => by decide) false _ s hs⟩

end

end Simd
