import Stagewise.Constraint.Normal
import Stagewise.Proofs.Tidy

/-! Recursive constraints whose variable stands below a part of the value, with no negation around
it: such a constraint has the values of its unfolding, and unfolding stays in the fragment. -/

set_option autoImplicit false

namespace Stagewise.Constraint

variable {F : Fragment} {tidy : Bool}

/-! ### Meaning -/

theorem Fits.holds_mono : ∀ {c : Constraint} {p : Position} {X Y : Value → Prop} {v : Value},
    c.Fits F tidy p → (∀ w, X w → Y w) → c.Holds X v → c.Holds Y v
  | .field name c, p, _, _, _, h, hXY, hv => by
    obtain ⟨fields, w, rfl, hw, hc⟩ := hv
    exact ⟨fields, w, rfl, hw, Fits.holds_mono (c := c) h hXY hc⟩
  | .elements c, p, _, _, _, h, hXY, hv => by
    obtain ⟨items, rfl, hall⟩ := hv
    exact ⟨items, rfl, fun w hw => Fits.holds_mono (c := c) h hXY (hall w hw)⟩
  | .elementAt _ c, p, _, _, _, h, hXY, hv => by
    obtain ⟨items, w, rfl, hw, hc⟩ := hv
    exact ⟨items, w, rfl, hw, Fits.holds_mono (c := c) h hXY hc⟩
  | .length c, p, _, _, _, h, hXY, hv => by
    obtain ⟨items, rfl, hc⟩ := hv
    exact ⟨items, rfl, Fits.holds_mono (c := c) h.2.2 hXY hc⟩
  | .conj cs, p, _, _, _, h, hXY, hv => by
    rw [holds_conj] at hv ⊢
    exact fun c hc => ((fits_conj.mp h).2 c hc).holds_mono hXY (hv c hc)
  | .disj cs, p, _, _, _, h, hXY, hv => by
    obtain ⟨c, hc, hv⟩ := holds_disj.mp hv
    exact holds_disj.mpr ⟨c, hc, ((fits_disj.mp h).2 c hc).holds_mono hXY hv⟩
  | .neg c, p, X, Y, _, h, _, hv => fun hc =>
    hv ((holds_iff_of_isFixFree h.2.2.isFixFree X Y).mpr hc)
  | .bvar _, _, _, _, v, _, hXY, hv => hXY v hv
  | .kind _, _, _, _, _, _, _, hv | .equals _, _, _, _, _, _, _, hv
  | .bound _ _, _, _, _, _, _, _, hv | .fix _, _, _, _, _, _, _, hv | .any, _, _, _, _, _, _, hv
  | .never, _, _, _, _, _, _, hv => hv
  | .ref _, _, _, _, _, h, _, _ | .var _, _, _, _, _, h, _, _ => h.elim

lemma exists_forall_mem_of_mono {α : Type} {P : Nat → α → Prop} {xs : List α}
    (hmono : ∀ x ∈ xs, ∀ j k, j ≤ k → P j x → P k x) (h : ∀ x ∈ xs, ∃ k, P k x) :
    ∃ k, ∀ x ∈ xs, P k x := by
  induction xs with
  | nil => exact ⟨0, by simp⟩
  | cons x xs ih =>
    rw [List.forall_mem_cons] at h hmono
    obtain ⟨⟨j, hj⟩, h⟩ := h
    obtain ⟨k, hk⟩ := ih hmono.2 h
    refine ⟨max j k, List.forall_mem_cons.mpr ⟨hmono.1 j _ (Nat.le_max_left j k) hj, ?_⟩⟩
    exact fun y hy => hmono.2 y hy k _ (Nat.le_max_right j k) (hk y hy)

section Chain

variable {X : Nat → Value → Prop}

/-- A value looks at finitely many parts: what the union of a chain makes true, one of its members
makes true. -/
theorem Fits.exists_holds (hX : ∀ j k w, j ≤ k → X j w → X k w) :
    ∀ {c : Constraint} {p : Position} {v : Value}, c.Fits F tidy p →
    c.Holds (fun w => ∃ k, X k w) v → ∃ k, c.Holds (X k) v
  | .field name c, p, _, h, hv => by
    obtain ⟨fields, w, rfl, hw, hc⟩ := hv
    obtain ⟨k, hk⟩ := Fits.exists_holds hX (c := c) h hc
    exact ⟨k, fields, w, rfl, hw, hk⟩
  | .elements c, p, _, h, hv => by
    obtain ⟨items, rfl, hall⟩ := hv
    obtain ⟨k, hk⟩ := exists_forall_mem_of_mono (P := fun k => c.Holds (X k))
      (fun _ _ j k hjk => Fits.holds_mono (c := c) h fun u => hX j k u hjk)
      fun w hw => Fits.exists_holds hX (c := c) h (hall w hw)
    exact ⟨k, items, rfl, hk⟩
  | .elementAt _ c, p, _, h, hv => by
    obtain ⟨items, w, rfl, hw, hc⟩ := hv
    obtain ⟨k, hk⟩ := Fits.exists_holds hX (c := c) h hc
    exact ⟨k, items, w, rfl, hw, hk⟩
  | .length c, p, _, h, hv => by
    obtain ⟨items, rfl, hc⟩ := hv
    obtain ⟨k, hk⟩ := Fits.exists_holds hX (c := c) h.2.2 hc
    exact ⟨k, items, rfl, hk⟩
  | .conj cs, p, _, h, hv => by
    have hcs := (fits_conj.mp h).2
    rw [holds_conj] at hv
    simp only [holds_conj]
    exact exists_forall_mem_of_mono
      (fun c hc j k hjk => (hcs c hc).holds_mono fun w => hX j k w hjk)
      fun c hc => Fits.exists_holds hX (hcs c hc) (hv c hc)
  | .disj cs, p, _, h, hv => by
    obtain ⟨c, hc, hv⟩ := holds_disj.mp hv
    obtain ⟨k, hk⟩ := Fits.exists_holds hX ((fits_disj.mp h).2 c hc) hv
    exact ⟨k, holds_disj.mpr ⟨c, hc, hk⟩⟩
  | .neg c, p, _, h, hv =>
    ⟨0, fun hc => hv ((holds_iff_of_isFixFree h.2.2.isFixFree _ _).mpr hc)⟩
  | .bvar _, _, _, _, hv => hv
  | .kind _, _, _, _, hv | .equals _, _, _, _, hv | .bound _ _, _, _, _, hv | .fix _, _, _, _, hv
  | .any, _, _, _, hv => ⟨0, hv⟩
  | .never, _, _, _, hv => hv.elim
  | .ref _, _, _, h, _ | .var _, _, _, h, _ => h.elim

end Chain

section Unrolling

variable {body : Constraint} {p : Position} (h : body.Fits F tidy p)
include h

lemma unrolling_succ (k : Nat) : ∀ v, unrolling body.Holds k v → unrolling body.Holds (k + 1) v := by
  induction k with
  | zero => exact fun _ hv => hv.elim
  | succ k ih => exact fun _ hv => h.holds_mono ih hv

lemma unrolling_mono (j k : Nat) (v : Value) (hjk : j ≤ k) (hv : unrolling body.Holds j v) :
    unrolling body.Holds k v := by
  induction k with
  | zero => rwa [Nat.le_zero.mp hjk] at hv
  | succ k ih =>
    rcases Nat.lt_or_eq_of_le hjk with hlt | rfl
    · exact unrolling_succ h k v (ih (Nat.lt_succ_iff.mp hlt))
    · exact hv

lemma holds_fix_iff (X : Value → Prop) (v : Value) :
    (fix body).Holds X v ↔ body.Holds ((fix body).Holds X) v := by
  constructor
  · rintro ⟨k, hk⟩
    cases k with
    | zero => exact hk.elim
    | succ k => exact h.holds_mono (fun w hw => ⟨k, hw⟩) hk
  · intro hv
    obtain ⟨k, hk⟩ := Fits.exists_holds (unrolling_mono h) h hv
    exact ⟨k + 1, hk⟩

end Unrolling

/-! ### Substitution -/

structure Replaces (f : Nat → Nat → Constraint) (r : Constraint) : Prop where
  here : f 0 0 = r
  inner : ∀ d, f (d + 1) 0 = .bvar 0

section Substitution

variable {f : Nat → Nat → Constraint} {r : Constraint}

lemma replaceVarsList_eq_map (d : Nat) (cs : List Constraint) :
    replaceVarsList f d cs = cs.map (·.replaceVars f d) := by
  induction cs with
  | nil => rfl
  | cons c cs ih => rw [replaceVarsList, ih, List.map_cons]

lemma replaceVarsList_eq_self {d : Nat} {cs : List Constraint}
    (h : ∀ c ∈ cs, c.replaceVars f d = c) : replaceVarsList f d cs = cs := by
  rw [replaceVarsList_eq_map, List.map_congr_left h, List.map_id']

theorem Fits.replaceVars_inner (hf : ∀ d, f (d + 1) 0 = .bvar 0) :
    ∀ {c : Constraint} {p : Position} (d : Nat), c.Fits F tidy p →
      c.replaceVars f (d + 1) = c
  | .field _ c, _, d, h | .elements c, _, d, h | .elementAt _ c, _, d, h => by
    rw [replaceVars, Fits.replaceVars_inner hf (c := c) d h]
  | .length c, _, d, h | .neg c, _, d, h => by
    rw [replaceVars, Fits.replaceVars_inner hf (c := c) d h.2.2]
  | .conj cs, _, d, h | .disj cs, _, d, h => by
    rw [replaceVars, replaceVarsList_eq_self fun c hc =>
      (allFit_iff.mp h.2 c hc).replaceVars_inner hf d]
  | .fix body, _, d, h => by
    obtain ⟨_, _, h⟩ := h
    rw [replaceVars, Fits.replaceVars_inner hf (d + 1) h]
  | .bvar _, _, d, h => by
    obtain ⟨rfl, _⟩ := h
    rw [replaceVars, hf d]
  | .kind _, _, _, _ | .equals _, _, _, _ | .bound _ _, _, _, _ | .any, _, _, _
  | .never, _, _, _ => rfl
  | .ref _, _, _, h | .var _, _, _, h => h.elim

theorem replaceVars_of_isFixFree (d : Nat) :
    ∀ {c : Constraint}, c.isFixFree → c.replaceVars f d = c
  | .field _ c, h | .elements c, h | .elementAt _ c, h | .length c, h | .neg c, h => by
    rw [replaceVars, replaceVars_of_isFixFree d (c := c) (by simpa [isFixFree] using h)]
  | .conj cs, h | .disj cs, h => by
    rw [isFixFree, areFixFree_iff] at h
    rw [replaceVars, replaceVarsList_eq_self fun c hc => replaceVars_of_isFixFree d (h c hc)]
  | .fix _, h | .bvar _, h => by simp [isFixFree] at h
  | .kind _, _ | .equals _, _ | .bound _ _, _ | .any, _ | .never, _ | .ref _, _ | .var _, _ => rfl

lemma isElements_replaceVars (hf : Replaces f r) (hr : r.isElements = false) {c : Constraint}
    {p : Position} (h : c.Fits F tidy p) : (c.replaceVars f 0).isElements = c.isElements := by
  cases c with
  | bvar i =>
    obtain ⟨rfl, _⟩ := h
    rw [replaceVars, hf.here, hr]
    rfl
  | _ => rfl

lemma countP_replaceVarsList (hf : Replaces f r) (hr : r.isElements = false)
    {cs : List Constraint} {p : Position} (h : AllFit F tidy cs p) :
    (replaceVarsList f 0 cs).countP isElements = cs.countP isElements := by
  induction cs with
  | nil => rfl
  | cons c cs ih =>
    rw [replaceVarsList, List.countP_cons, List.countP_cons, ih h.2,
      isElements_replaceVars hf hr h.1]

mutual

theorem Fits.replaceVars (hf : Replaces f r) (hr : r.Fits F tidy .deep)
    (he : r.isElements = false) : ∀ {c : Constraint} {p : Position}, c.Fits F tidy p →
      (c.replaceVars f 0).Fits F tidy p
  | .field _ c, _, h | .elements c, _, h | .elementAt _ c, _, h =>
    Fits.replaceVars hf hr he (c := c) h
  | .length c, _, h | .neg c, _, h => by
    rw [Constraint.replaceVars, replaceVars_of_isFixFree 0 h.2.2.isFixFree]
    exact h
  | .conj cs, _, h => by
    refine ⟨fun ht => ?_, AllFit.replaceVarsList hf hr he h.2⟩
    rw [countP_replaceVarsList hf he h.2]
    exact h.1 ht
  | .disj cs, _, h => ⟨h.1, AllFit.replaceVarsList hf hr he h.2⟩
  | .fix body, p, h => by
    obtain ⟨k, hk, h⟩ := h
    rw [Constraint.replaceVars, h.replaceVars_inner hf.inner 0]
    exact ⟨k, hk, h⟩
  | .bvar _, _, h => by
    obtain ⟨rfl, rfl⟩ := h
    rwa [Constraint.replaceVars, hf.here]
  | .kind _, _, h | .equals _, _, h | .bound _ _, _, h | .any, _, h | .never, _, h => h
  | .ref _, _, h | .var _, _, h => h.elim

theorem AllFit.replaceVarsList (hf : Replaces f r) (hr : r.Fits F tidy .deep)
    (he : r.isElements = false) : ∀ {cs : List Constraint} {p : Position}, AllFit F tidy cs p →
      AllFit F tidy (replaceVarsList f 0 cs) p
  | [], _, _ => trivial
  | _ :: _, _, h => ⟨Fits.replaceVars hf hr he h.1, AllFit.replaceVarsList hf hr he h.2⟩

end

theorem Fits.holds_replaceVars (hf : Replaces f r) {X : Value → Prop} :
    ∀ {c : Constraint} {p : Position} {v : Value}, c.Fits F tidy p →
      ((c.replaceVars f 0).Holds X v ↔ c.Holds (r.Holds X) v)
  | .field _ c, _, _, h | .elementAt _ c, _, _, h =>
    exists₂_congr fun _ _ => and_congr_right fun _ => and_congr_right fun _ =>
      Fits.holds_replaceVars hf (c := c) h
  | .elements c, _, _, h =>
    exists_congr fun _ => and_congr_right fun _ => forall₂_congr fun _ _ =>
      Fits.holds_replaceVars hf (c := c) h
  | .length c, _, _, h =>
    exists_congr fun _ => and_congr_right fun _ => Fits.holds_replaceVars hf h.2.2
  | .neg c, _, _, h => not_congr (Fits.holds_replaceVars hf h.2.2)
  | .conj cs, _, _, h => by
    rw [Constraint.replaceVars, holds_conj, holds_conj, replaceVarsList_eq_map, List.forall_mem_map]
    exact forall₂_congr fun c hc => Fits.holds_replaceVars hf (allFit_iff.mp h.2 c hc)
  | .disj cs, _, _, h => by
    rw [Constraint.replaceVars, holds_disj, holds_disj, replaceVarsList_eq_map]
    simp only [List.mem_map, exists_exists_and_eq_and]
    exact exists_congr fun c => and_congr_right fun hc =>
      Fits.holds_replaceVars hf (allFit_iff.mp h.2 c hc)
  | .fix body, p, _, h => by
    obtain ⟨k, hk, h⟩ := h
    rw [Constraint.replaceVars, h.replaceVars_inner hf.inner 0]
    exact Iff.rfl
  | .bvar _, _, _, h => by
    obtain ⟨rfl, rfl⟩ := h
    rw [Constraint.replaceVars, hf.here]
    exact Iff.rfl
  | .kind _, _, _, _ | .equals _, _, _, _ | .bound _ _, _, _, _ | .any, _, _, _
  | .never, _, _, _ => Iff.rfl
  | .ref _, _, _, h | .var _, _, _, h => h.elim

end Substitution

/-! ### Unfolding -/

section Unfold

variable {body : Constraint} {p : Position} {k : Nat} (h : body.Fits F tidy (.shallow k))
include h

lemma lift_fix (offset : Int) : (fix body).lift offset = fix body := by
  rw [lift, replaceVars, h.replaceVars_inner (fun d => by simp) 0]

lemma replaces_unfold : Replaces
    (fun depth i => if i = depth then (fix body).lift depth
      else .bvar (if depth < i then i - 1 else i)) (fix body) :=
  ⟨by simpa using lift_fix h 0, fun d => by simp⟩

lemma fits_unfold : (unfold (fix body)).Fits F tidy (.shallow k) :=
  Fits.replaceVars (replaces_unfold h) ⟨k, trivial, h⟩ rfl h

lemma holds_unfold {X : Value → Prop} {v : Value} :
    (unfold (fix body)).Holds X v ↔ (fix body).Holds X v :=
  (h.holds_replaceVars (replaces_unfold h)).trans (holds_fix_iff h X v).symm

end Unfold

/-! ### A body without its variable -/

section Constant

variable {f : Nat → Nat → Constraint}

lemma anyVarList_eq_false {p : Nat → Nat → Bool} {d : Nat} {cs : List Constraint} :
    anyVarList p d cs = false ↔ ∀ c ∈ cs, c.anyVar p d = false := by
  induction cs with
  | nil => simp [anyVarList]
  | cons c cs ih => simp [anyVarList, ih]

theorem Fits.replaceVars_eq_self (hf : ∀ d, f (d + 1) 0 = .bvar 0) :
    ∀ {c : Constraint} {p : Position}, c.Fits F tidy p → c.mentionsSelf = false →
      c.replaceVars f 0 = c
  | .field _ c, _, h, hm | .elements c, _, h, hm | .elementAt _ c, _, h, hm => by
    rw [Constraint.replaceVars, Fits.replaceVars_eq_self hf (c := c) h hm]
  | .length c, _, h, hm | .neg c, _, h, hm => by
    rw [Constraint.replaceVars, Fits.replaceVars_eq_self hf (c := c) h.2.2 hm]
  | .conj cs, _, h, hm | .disj cs, _, h, hm => by
    have hcs := anyVarList_eq_false.mp hm
    rw [Constraint.replaceVars, replaceVarsList_eq_self fun c hc =>
      (allFit_iff.mp h.2 c hc).replaceVars_eq_self hf (hcs c hc)]
  | .fix body, _, h, _ => by
    obtain ⟨_, _, h⟩ := h
    rw [Constraint.replaceVars, h.replaceVars_inner hf 0]
  | .bvar _, _, h, hm => by
    obtain ⟨rfl, _⟩ := h
    simp [mentionsSelf, anyVar] at hm
  | .kind _, _, _, _ | .equals _, _, _, _ | .bound _ _, _, _, _ | .any, _, _, _
  | .never, _, _, _ => rfl
  | .ref _, _, h, _ | .var _, _, h, _ => h.elim

end Constant

lemma Fits.holds_iff_of_not_mentionsSelf {c : Constraint} {p : Position} {v : Value}
    (h : c.Fits F tidy p) (hm : c.mentionsSelf = false) (X Y : Value → Prop) :
    c.Holds X v ↔ c.Holds Y v := by
  -- put `never` for the variable: nothing changes, and `never` means the same everywhere
  have hf : Replaces (fun depth i => if i = depth then never else .bvar i) never :=
    ⟨by simp, fun d => by simp⟩
  have hconst (Z : Value → Prop) : c.Holds Z v ↔ c.Holds (fun _ => False) v := by
    have hz := h.holds_replaceVars (X := Z) (v := v) hf
    rwa [h.replaceVars_eq_self hf.inner hm] at hz
  exact (hconst X).trans (hconst Y).symm

lemma finishFix_spec {body : Constraint} {p : Position} {k : Nat} (hk : p.Allows k)
    (h : body.Tidy F (.shallow k)) : (finishFix body).Tidy F p ∧
      ∀ (X : Value → Prop) (v : Value), (finishFix body).Holds X v ↔ (fix body).Holds X v := by
  simp only [finishFix]
  split_ifs with hn hm
  · refine ⟨trivial, fun X v => ⟨False.elim, fun hv => ?_⟩⟩
    rw [holds_fix_iff h, eq_never_of_isNever hn] at hv
    exact hv
  · rw [Bool.not_eq_true'] at hm
    rw [lift, h.replaceVars_eq_self (fun d => by simp) hm]
    exact ⟨h.mono hk.le, fun X v =>
      (h.holds_iff_of_not_mentionsSelf hm _ _).trans (holds_fix_iff h X v).symm⟩
  · exact ⟨⟨k, hk, h⟩, fun X v => Iff.rfl⟩

/-! ### Depth -/

mutual

def depth : Constraint → Nat
  | .conj cs | .disj cs => depthList cs
  | .fix body => body.depth + 1
  | _ => 0
termination_by structural c => c

def depthList : List Constraint → Nat
  | [] => 0
  | c :: cs => max c.depth (depthList cs)
termination_by structural cs => cs

end

mutual

theorem depth_eq_of_same : ∀ {c d : Constraint}, c.same d → c.depth = d.depth
  | .conj cs, d, h | .disj cs, d, h => by
    cases d <;> simp only [same, Bool.false_eq_true] at h
    simpa only [depth] using depthList_eq_of_same h
  | .fix b, d, h => by
    cases d <;> simp only [same, Bool.false_eq_true] at h
    rw [depth, depth, depth_eq_of_same h]
  | .kind _, d, h | .equals _, d, h | .bound _ _, d, h | .field _ _, d, h | .elements _, d, h
  | .elementAt _ _, d, h | .length _, d, h | .neg _, d, h | .bvar _, d, h | .ref _, d, h
  | .var _, d, h | .any, d, h | .never, d, h => by
    cases d <;> simp_all [same, depth]

theorem depthList_eq_of_same : ∀ {cs ds : List Constraint}, sameList cs ds →
    depthList cs = depthList ds
  | [], ds, h => by cases ds <;> simp_all [sameList]
  | c :: cs, ds, h => by
    cases ds <;> simp only [sameList, Bool.false_eq_true, Bool.and_eq_true] at h
    rw [depthList, depthList, depth_eq_of_same h.1, depthList_eq_of_same h.2]

end

def Exceeds (c : Constraint) : Position → Prop
  | .plain => 0 < c.depth
  | .deep => False
  | .shallow m => m < c.depth

lemma Exceeds.of_le {c : Constraint} {p q : Position} (h : c.Exceeds q) (hpq : p.Le q) :
    c.Exceeds p := by
  cases p <;> cases q <;> simp_all only [Exceeds, Position.Le]
  omega

lemma depthList_le_iff {cs : List Constraint} {n : Nat} :
    depthList cs ≤ n ↔ ∀ c ∈ cs, c.depth ≤ n := by
  induction cs with
  | nil => simp [depthList]
  | cons c cs ih => simp only [depthList, Nat.max_le, ih, List.forall_mem_cons]

theorem Fits.depth_eq_zero : ∀ {c : Constraint}, c.Fits F tidy .plain → c.depth = 0
  | .conj cs, h | .disj cs, h => by
    rw [depth, ← Nat.le_zero, depthList_le_iff]
    exact fun c hc => Nat.le_zero.mpr (allFit_iff.mp h.2 c hc).depth_eq_zero
  | .fix _, h => by
    obtain ⟨_, hk, _⟩ := h
    exact hk.elim
  | .kind _, _ | .equals _, _ | .bound _ _, _ | .field _ _, _ | .elements _, _
  | .elementAt _ _, _ | .length _, _ | .neg _, _ | .bvar _, _ | .ref _, _ | .var _, _ | .any, _
  | .never, _ => rfl

theorem Fits.depth_le : ∀ {c : Constraint} {m : Nat}, c.Fits F tidy (.shallow m) → c.depth ≤ m
  | .conj cs, _, h | .disj cs, _, h => by
    rw [depth, depthList_le_iff]
    exact fun c hc => (allFit_iff.mp h.2 c hc).depth_le
  | .fix _, _, h => by
    obtain ⟨k, hk, h⟩ := h
    have hb := h.depth_le
    simp only [Position.Allows] at hk
    rw [depth]
    omega
  | .kind _, _, _ | .equals _, _, _ | .bound _ _, _, _ | .field _ _, _, _ | .elements _, _, _
  | .elementAt _ _, _, _ | .length _, _, _ | .neg _, _, _ | .bvar _, _, _ | .ref _, _, _
  | .var _, _, _ | .any, _, _ | .never, _, _ => Nat.zero_le _

lemma Fits.not_exceeds {c : Constraint} {p : Position} (h : c.Fits F tidy p) : ¬ c.Exceeds p := by
  cases p with
  | plain => simpa [Exceeds] using h.depth_eq_zero
  | deep => exact id
  | shallow m => simpa [Exceeds] using h.depth_le

theorem Fits.at_depth : ∀ {c : Constraint} {m n : Nat}, c.Fits F tidy (.shallow m) →
    c.depth ≤ n → c.Fits F tidy (.shallow n)
  | .field _ _, _, _, h, _ | .elements _, _, _, h, _ | .elementAt _ _, _, _, h, _
  | .length _, _, _, h, _ => h
  | .conj cs, _, _, h, hn | .disj cs, _, _, h, hn => by
    rw [depth, depthList_le_iff] at hn
    exact ⟨h.1, h.2.imp fun c hc h => h.at_depth (hn c hc)⟩
  | .fix _, _, _, h, hn => by
    obtain ⟨k, hk, h⟩ := h
    rw [depth] at hn
    exact ⟨_, hn, h.at_depth (Nat.le_refl _)⟩
  | .equals _, _, _, h, _ | .bound _ _, _, _, h, _ => nomatch h.1
  | .neg _, _, _, h, _ | .bvar _, _, _, h, _ => by simp [Fits] at h
  | .kind _, _, _, _, _ | .any, _, _, _, _ | .never, _, _, _, _ => trivial
  | .ref _, _, _, h, _ | .var _, _, _, h, _ => h.elim

lemma fits_unfold_at_depth {body : Constraint} {p : Position} (h : (fix body).Fits F tidy p) :
    (unfold (fix body)).Fits F tidy (.shallow body.depth) ∧
      (fix body).Exceeds (.shallow body.depth) ∧ (Position.shallow body.depth).Le p := by
  obtain ⟨k, hk, h⟩ := h
  have hd := h.at_depth (Nat.le_refl _)
  refine ⟨fits_unfold hd, Nat.lt_succ_self _, ?_⟩
  have hle := h.depth_le
  cases p <;> simp_all [Position.Allows, Position.Le]
  omega

end Stagewise.Constraint
