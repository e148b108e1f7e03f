import ParSort.Aocl.Proof.Host

/-!
# What creates no event

`init_opencl`, `cleanup` and `_checkError` create objects, but no event among them: the commands of
a program are those it enqueues between the two.
-/

namespace Aocl

open Resource

/-- No entry of the log creates an event. -/
def NoEvent (log : List (Ledger.Event Object)) : Prop := ∀ i e, .acquire (.event i e) ∉ log

/-- What `x` adds to the log creates no event. -/
def Quiet {α : Type} (x : Host α) : Prop :=
  ∀ w, Meets x w (fun _ w' => ∃ log, w'.log = w.log ++ log ∧ NoEvent log) fun _ _ => True

section
variable {α β ι : Type} {x : Host α}

theorem quiet_pure (a : α) : Quiet (pure a) := fun w => ⟨[], by simp, by simp [NoEvent]⟩

theorem quiet_throw (e : Stop) : Quiet (throw e : Host α) := fun _ => trivial

theorem quiet_get : Quiet (get : Host World) := fun w => ⟨[], by simp, by simp [NoEvent]⟩

theorem quiet_modify {g : World → World} (h : ∀ w, (g w).log = w.log) :
    Quiet (modify g : Host PUnit) := fun w => ⟨[], by simp [h], by simp [NoEvent]⟩

theorem quiet_emit {event : Ledger.Event Object} (h : ∀ i e, event ≠ .acquire (.event i e)) :
    Quiet (emit event) :=
  fun _ => ⟨[event], rfl, fun i e hmem => h i e (List.mem_singleton.1 hmem).symm⟩

theorem quiet_bind {f : α → Host β} (hx : Quiet x) (hf : ∀ a, Quiet (f a)) : Quiet (x >>= f) := by
  refine fun w => meets_bind ((hx w).mono ?_ fun _ _ h => h)
  rintro a w' ⟨log, hlog, hno⟩
  refine (hf a w').mono ?_ fun _ _ h => h
  rintro b w'' ⟨log', hlog', hno'⟩
  refine ⟨log ++ log', by rw [hlog', hlog, List.append_assoc], fun i e hmem => ?_⟩
  rcases List.mem_append.1 hmem with h | h
  · exact hno i e h
  · exact hno' i e h

theorem quiet_forM {l : List ι} {body : ι → Host PUnit} (h : ∀ y, Quiet (body y)) :
    Quiet (l.forM body) := by
  induction l with
  | nil => exact quiet_pure PUnit.unit
  | cons y l ih => exact quiet_bind (h y) fun _ => ih

theorem quiet_ite {c : Prop} [Decidable c] {y : Host α} (hx : Quiet x) (hy : Quiet y) :
    Quiet (if c then x else y) := by
  split
  · exact hx
  · exact hy

end

section
variable {kinds order : List Kind} {env : Env}

theorem quiet_release (h : Handle) : Quiet (release h) := by
  cases h with
  | uninitialised => exact quiet_throw _
  | null => exact quiet_pure _
  | object o => exact quiet_emit nofun

theorem quiet_cleanup : Quiet (cleanup order) :=
  quiet_bind quiet_get fun _ => quiet_bind (quiet_forM fun _ => quiet_forM fun _ => quiet_release _)
    fun _ => quiet_bind (quiet_release _) fun _ => quiet_release _

theorem quiet_checkError (error : Int) : Quiet (checkError order error) :=
  quiet_ite (quiet_bind quiet_cleanup fun _ => quiet_throw _) (quiet_pure _)

theorem quiet_newObject {call : Call} {o : Object} (h : ∀ i e, o ≠ .event i e) :
    Quiet (newObject env call o) :=
  quiet_ite (quiet_bind (quiet_emit fun i e he => h i e (by injection he)) fun _ => quiet_pure _)
    (quiet_pure _)

theorem quiet_createSlot (i : Nat) (kind : Kind) : Quiet (createSlot order env i kind) :=
  quiet_bind (quiet_newObject nofun) fun _ => quiet_bind (quiet_modify fun _ => rfl)
    fun _ => quiet_checkError _

theorem quiet_openContext : Quiet (openContext order env) := by
  refine quiet_ite (quiet_pure _) (quiet_bind (quiet_checkError _) fun _ => ?_)
  refine quiet_ite (quiet_pure _) (quiet_bind (quiet_modify fun _ => rfl) fun _ => ?_)
  refine quiet_bind (quiet_checkError _) fun _ => quiet_bind (quiet_checkError _) fun _ => ?_
  refine quiet_bind (quiet_newObject nofun) fun _ => ?_
  refine quiet_bind (quiet_modify fun _ => rfl) fun _ => ?_
  exact quiet_bind (quiet_checkError _) fun _ => quiet_pure _

theorem quiet_createProgramFromBinary : Quiet (createProgramFromBinary order env) := by
  refine quiet_bind (quiet_checkError _) fun _ => quiet_bind (quiet_newObject nofun) fun _ => ?_
  refine quiet_bind (quiet_checkError _) fun _ => quiet_bind ?_ fun _ => quiet_pure _
  exact quiet_forM fun _ => quiet_checkError _

theorem quiet_createObjects : Quiet (createObjects kinds order env) := by
  refine quiet_bind quiet_createProgramFromBinary fun _ => ?_
  refine quiet_bind (quiet_modify fun _ => rfl) fun _ => quiet_bind (quiet_checkError _) fun _ => ?_
  refine quiet_bind (quiet_modify fun w => by rw [resets_eq]) fun _ => ?_
  exact quiet_forM fun _ => quiet_forM fun _ => quiet_createSlot _ _

theorem quiet_initOpencl : Quiet (initOpencl kinds order env) := by
  refine quiet_bind quiet_openContext fun _ => quiet_ite (quiet_pure _) ?_
  refine quiet_ite (quiet_bind (quiet_throw _) fun _ => ?_) ?_
  all_goals exact quiet_bind quiet_createObjects fun _ => quiet_pure _

end

end Aocl
