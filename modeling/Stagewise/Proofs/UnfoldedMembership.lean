import Stagewise.Proofs.PatternReadings

/-! Membership in a guarded recursive constraint and in its unfolding. Each unrolling of a guarded
constraint leads to a part of the value or takes a layer off the constraint, so a check spends a
number of unrollings that is the same for every budget that suffices. The recursive constraint
spends one more than its unfolding, and has the same members. -/

set_option autoImplicit false

namespace Stagewise.Constraint

open Association

/-! ### Guarded constraints -/

mutual

def isGuardedThroughout : Constraint → Bool
  | .fix body => body.isGuarded 0 && body.isGuardedThroughout
  | .field _ c | .elements c | .length c | .elementAt _ c | .neg c => c.isGuardedThroughout
  | .conj cs | .disj cs => areGuardedThroughout cs
  | _ => true
termination_by structural c => c

def areGuardedThroughout : List Constraint → Bool
  | [] => true
  | c :: cs => c.isGuardedThroughout && areGuardedThroughout cs
termination_by structural cs => cs

end

mutual

def surface : Constraint → Nat
  | .conj cs | .disj cs => surfaceList cs + 1
  | .neg c | .fix c => c.surface + 1
  | _ => 0
termination_by structural c => c

def surfaceList : List Constraint → Nat
  | [] => 0
  | c :: cs => c.surface + surfaceList cs
termination_by structural cs => cs

end

lemma areGuardedThroughout_iff {cs : List Constraint} :
    areGuardedThroughout cs ↔ ∀ c ∈ cs, c.isGuardedThroughout := by
  induction cs with
  | nil => simp [areGuardedThroughout]
  | cons c cs ih => simp [areGuardedThroughout, ih]

lemma surface_le_surfaceList {cs : List Constraint} {c : Constraint} (h : c ∈ cs) :
    c.surface ≤ surfaceList cs := by
  induction cs with
  | nil => simp at h
  | cons d cs ih =>
    rw [surfaceList]
    rcases List.mem_cons.mp h with rfl | h
    · exact Nat.le_add_right _ _
    · exact Nat.le_trans (ih h) (Nat.le_add_left _ _)

/-! ### Closed constraints -/

abbrev ClosedWithin (depth : Nat) (c : Constraint) : Prop :=
  c.anyVar (fun depth i => depth ≤ i) depth = false

lemma ClosedWithin.members {d : Nat} {cs : List Constraint} (h : (conj cs).ClosedWithin d) :
    ∀ c ∈ cs, c.ClosedWithin d :=
  anyVarList_eq_false.mp h

lemma isGuardedList_iff {i : Nat} {cs : List Constraint} :
    isGuardedList i cs ↔ ∀ c ∈ cs, c.isGuarded i := by
  induction cs with
  | nil => simp [isGuardedList]
  | cons c cs ih => simp [isGuardedList, ih]

theorem ClosedWithin.mono : ∀ {c : Constraint} {d e : Nat}, c.ClosedWithin d → d ≤ e →
    c.ClosedWithin e
  | .bvar i, d, e, h, hde => by
    simp only [ClosedWithin, anyVar, decide_eq_false_iff_not] at h ⊢
    omega
  | .fix body, _, _, h, hde =>
    ClosedWithin.mono (c := body) h (Nat.succ_le_succ hde)
  | .field _ c, _, _, h, hde | .elements c, _, _, h, hde | .length c, _, _, h, hde
  | .elementAt _ c, _, _, h, hde | .neg c, _, _, h, hde => ClosedWithin.mono (c := c) h hde
  | .conj cs, _, _, h, hde | .disj cs, _, _, h, hde =>
    anyVarList_eq_false.mpr fun c hc => ClosedWithin.mono (ClosedWithin.members h c hc) hde
  | .kind _, _, _, _, _ | .equals _, _, _, _, _ | .bound _ _, _, _, _, _ | .ref _, _, _, _, _
  | .var _, _, _, _, _ | .any, _, _, _, _ | .never, _, _, _, _ => rfl

theorem ClosedWithin.isGuarded : ∀ {c : Constraint} {d k : Nat}, c.ClosedWithin d → d ≤ k →
    c.isGuarded k
  | .bvar i, d, k, h, hk => by
    simp only [ClosedWithin, anyVar, decide_eq_false_iff_not] at h
    simp only [Constraint.isGuarded, bne_iff_ne]
    omega
  | .fix body, _, _, h, hk => by
    rw [Constraint.isGuarded]
    exact ClosedWithin.isGuarded (c := body) h (Nat.succ_le_succ hk)
  | .conj cs, _, _, h, hk | .disj cs, _, _, h, hk => by
    rw [Constraint.isGuarded, isGuardedList_iff]
    exact fun c hc => ClosedWithin.isGuarded (ClosedWithin.members h c hc) hk
  | .neg c, _, _, h, hk => by
    rw [Constraint.isGuarded]
    exact ClosedWithin.isGuarded (c := c) h hk
  | .field _ _, _, _, _, _ | .elements _, _, _, _, _ | .length _, _, _, _, _
  | .elementAt _ _, _, _, _, _ | .kind _, _, _, _, _ | .equals _, _, _, _, _
  | .bound _ _, _, _, _, _ | .ref _, _, _, _, _ | .var _, _, _, _, _ | .any, _, _, _, _
  | .never, _, _, _, _ => rfl

section Replace

variable {f : Nat → Nat → Constraint}

theorem ClosedWithin.replaceVars_eq (hf : ∀ depth i, i < depth → f depth i = .bvar i) :
    ∀ {c : Constraint} {d : Nat}, c.ClosedWithin d → c.replaceVars f d = c
  | .bvar i, d, h => by
    simp only [ClosedWithin, anyVar, decide_eq_false_iff_not, Nat.not_le] at h
    exact hf d i h
  | .fix body, _, h => by
    rw [replaceVars, ClosedWithin.replaceVars_eq hf (c := body) h]
  | .field _ c, _, h | .elements c, _, h | .length c, _, h | .elementAt _ c, _, h
  | .neg c, _, h => by
    rw [replaceVars, ClosedWithin.replaceVars_eq hf (c := c) h]
  | .conj cs, _, h | .disj cs, _, h => by
    rw [replaceVars, replaceVarsList_eq_self fun c hc =>
      ClosedWithin.replaceVars_eq hf (ClosedWithin.members h c hc)]
  | .kind _, _, _ | .equals _, _, _ | .bound _ _, _, _ | .ref _, _, _ | .var _, _, _
  | .any, _, _ | .never, _, _ => rfl

lemma lift_of_closed {c : Constraint} (h : c.ClosedWithin 0) (offset : Int) : c.lift offset = c :=
  ClosedWithin.replaceVars_eq (fun depth i hi => by simp [Nat.not_le.mpr hi]) h

end Replace

/-! ### Unfolding -/

structure Closes (f : Nat → Nat → Constraint) (r : Constraint) : Prop where
  here : ∀ depth, f depth depth = r
  inner : ∀ depth i, i < depth → f depth i = .bvar i
  closed : r.ClosedWithin 0

section Unfold

variable {f : Nat → Nat → Constraint} {r : Constraint}

lemma Closes.eq_or {d i : Nat} (hf : Closes f r) (h : (bvar i).ClosedWithin (d + 1)) :
    i = d ∧ f d i = r ∨ i < d ∧ f d i = .bvar i := by
  simp only [ClosedWithin, anyVar, decide_eq_false_iff_not] at h
  rcases Nat.lt_or_ge i d with hlt | hge
  · exact Or.inr ⟨hlt, hf.inner d i hlt⟩
  · obtain rfl : i = d := by omega
    exact Or.inl ⟨rfl, hf.here i⟩

theorem ClosedWithin.replaceVars (hf : Closes f r) : ∀ {c : Constraint} {d : Nat},
    c.ClosedWithin (d + 1) → (c.replaceVars f d).ClosedWithin d
  | .bvar i, d, h => by
    rw [Constraint.replaceVars]
    rcases hf.eq_or h with ⟨_, hi⟩ | ⟨hlt, hi⟩
    · rw [hi]
      exact hf.closed.mono (Nat.zero_le d)
    · rw [hi]
      simpa [ClosedWithin, anyVar] using hlt
  | .fix body, _, h => ClosedWithin.replaceVars hf (c := body) h
  | .field _ c, _, h | .elements c, _, h | .length c, _, h | .elementAt _ c, _, h
  | .neg c, _, h => ClosedWithin.replaceVars hf (c := c) h
  | .conj cs, _, h | .disj cs, _, h => by
    refine anyVarList_eq_false.mpr ?_
    rw [replaceVarsList_eq_map, List.forall_mem_map]
    exact fun c hc => ClosedWithin.replaceVars hf (ClosedWithin.members h c hc)
  | .kind _, _, _ | .equals _, _, _ | .bound _ _, _, _ | .ref _, _, _ | .var _, _, _
  | .any, _, _ | .never, _, _ => rfl

theorem isGuarded_replaceVars (hf : Closes f r) : ∀ {c : Constraint} {k d : Nat},
    c.ClosedWithin (d + 1) → k < d → c.isGuarded k → (c.replaceVars f d).isGuarded k
  | .bvar i, k, d, hc, hk, h => by
    rw [Constraint.replaceVars]
    rcases hf.eq_or hc with ⟨_, hi⟩ | ⟨_, hi⟩
    · rw [hi]
      exact hf.closed.isGuarded (Nat.zero_le k)
    · rwa [hi]
  | .fix body, _, _, hc, hk, h => by
    rw [Constraint.isGuarded] at h
    rw [Constraint.replaceVars, Constraint.isGuarded]
    exact isGuarded_replaceVars hf (c := body) hc (Nat.succ_lt_succ hk) h
  | .conj cs, _, _, hc, hk, h | .disj cs, _, _, hc, hk, h => by
    rw [Constraint.isGuarded, isGuardedList_iff] at h
    rw [Constraint.replaceVars, Constraint.isGuarded, isGuardedList_iff, replaceVarsList_eq_map,
      List.forall_mem_map]
    exact fun c hm => isGuarded_replaceVars hf (ClosedWithin.members hc c hm) hk (h c hm)
  | .neg c, _, _, hc, hk, h => by
    rw [Constraint.isGuarded] at h
    rw [Constraint.replaceVars, Constraint.isGuarded]
    exact isGuarded_replaceVars hf (c := c) hc hk h
  | .field _ _, _, _, _, _, _ | .elements _, _, _, _, _, _ | .length _, _, _, _, _, _
  | .elementAt _ _, _, _, _, _, _ | .kind _, _, _, _, _, _ | .equals _, _, _, _, _, _
  | .bound _ _, _, _, _, _, _ | .ref _, _, _, _, _, _ | .var _, _, _, _, _, _
  | .any, _, _, _, _, _ | .never, _, _, _, _, _ => rfl

theorem isGuardedThroughout_replaceVars (hf : Closes f r) (hr : r.isGuardedThroughout) :
    ∀ {c : Constraint} {d : Nat}, c.ClosedWithin (d + 1) → c.isGuardedThroughout →
      (c.replaceVars f d).isGuardedThroughout
  | .bvar i, d, hc, _ => by
    rw [replaceVars]
    rcases hf.eq_or hc with ⟨_, hi⟩ | ⟨_, hi⟩
    · rwa [hi]
    · rw [hi]
      rfl
  | .fix body, _, hc, h => by
    rw [isGuardedThroughout, Bool.and_eq_true] at h
    rw [replaceVars, isGuardedThroughout, Bool.and_eq_true]
    exact ⟨isGuarded_replaceVars hf (c := body) hc (Nat.succ_pos _) h.1,
      isGuardedThroughout_replaceVars hf hr (c := body) hc h.2⟩
  | .field _ c, _, hc, h | .elements c, _, hc, h | .length c, _, hc, h | .elementAt _ c, _, hc, h
  | .neg c, _, hc, h => by
    rw [isGuardedThroughout] at h
    rw [replaceVars, isGuardedThroughout]
    exact isGuardedThroughout_replaceVars hf hr (c := c) hc h
  | .conj cs, _, hc, h | .disj cs, _, hc, h => by
    rw [isGuardedThroughout, areGuardedThroughout_iff] at h
    rw [replaceVars, isGuardedThroughout, areGuardedThroughout_iff, replaceVarsList_eq_map,
      List.forall_mem_map]
    exact fun c hm => isGuardedThroughout_replaceVars hf hr (ClosedWithin.members hc c hm) (h c hm)
  | .kind _, _, _, _ | .equals _, _, _, _ | .bound _ _, _, _, _ | .ref _, _, _, _
  | .var _, _, _, _ | .any, _, _, _ | .never, _, _, _ => rfl

mutual

theorem surface_replaceVars (hf : Closes f r) : ∀ {c : Constraint} {d : Nat},
    c.ClosedWithin (d + 1) → c.isGuarded d → (c.replaceVars f d).surface = c.surface
  | .bvar i, d, hc, h => by
    rw [replaceVars]
    rcases hf.eq_or hc with ⟨hd, _⟩ | ⟨_, hi⟩
    · simp [Constraint.isGuarded, hd] at h
    · rw [hi]
  | .fix c, _, hc, h | .neg c, _, hc, h => by
    rw [Constraint.isGuarded] at h
    rw [replaceVars, surface, surface, surface_replaceVars hf (c := c) hc h]
  | .conj cs, _, hc, h | .disj cs, _, hc, h => by
    rw [Constraint.isGuarded] at h
    rw [replaceVars, surface, surface, surfaceList_replaceVars hf (l := cs) hc h]
  | .field _ _, _, _, _ | .elements _, _, _, _ | .length _, _, _, _ | .elementAt _ _, _, _, _
  | .kind _, _, _, _ | .equals _, _, _, _ | .bound _ _, _, _, _ | .ref _, _, _, _
  | .var _, _, _, _ | .any, _, _, _ | .never, _, _, _ => rfl

theorem surfaceList_replaceVars (hf : Closes f r) : ∀ {l : List Constraint} {d : Nat},
    (conj l).ClosedWithin (d + 1) → Constraint.isGuardedList d l →
      surfaceList (replaceVarsList f d l) = surfaceList l
  | [], _, _, _ => rfl
  | c :: cs, _, hc, h => by
    simp only [ClosedWithin, anyVar, anyVarList, Bool.or_eq_false_iff] at hc
    simp only [Constraint.isGuardedList, Bool.and_eq_true] at h
    rw [replaceVarsList, surfaceList, surfaceList, surface_replaceVars hf (c := c) hc.1 h.1,
      surfaceList_replaceVars hf hc.2 h.2]

end

variable {body : Constraint} (hc : (fix body).ClosedWithin 0)
include hc

lemma closes_unfold : Closes (fun depth i => if i = depth then (fix body).lift depth
    else .bvar (if depth < i then i - 1 else i)) (fix body) := by
  refine ⟨fun depth => ?_, fun depth i hi => ?_, hc⟩
  · simp [lift_of_closed hc]
  · rw [if_neg (Nat.ne_of_lt hi), if_neg (Nat.lt_asymm hi)]

lemma closed_unfold : (unfold (fix body)).ClosedWithin 0 :=
  ClosedWithin.replaceVars (closes_unfold hc) (c := body) hc

variable (h : (fix body).isGuardedThroughout)
include h

lemma isGuardedThroughout_unfold : (unfold (fix body)).isGuardedThroughout := by
  have hbody := h
  rw [isGuardedThroughout, Bool.and_eq_true] at hbody
  exact isGuardedThroughout_replaceVars (closes_unfold hc) h (c := body) hc hbody.2

lemma surface_unfold_lt : (unfold (fix body)).surface < (fix body).surface := by
  rw [isGuardedThroughout, Bool.and_eq_true] at h
  rw [surface]
  exact Nat.lt_succ_of_le
    (Nat.le_of_eq (surface_replaceVars (closes_unfold hc) (c := body) hc h.1))

end Unfold

/-! ### What a check spends -/

abbrev HasCost (run : Nat → Nat → Bool × Nat) : Prop := ∃ n b, Spends n b run

abbrev CheckHasCost (v : Value) (c : Constraint) : Prop :=
  HasCost fun depth budget => check depth budget v c

section HasCost

variable {b : Bool} {m n : Nat} {run first second : Nat → Nat → Bool × Nat}

lemma hasCost_const (h : ∀ depth budget, run depth budget = (b, budget)) : HasCost run :=
  ⟨0, b, fun depth budget _ _ => h depth budget⟩

lemma HasCost.opposite (h : HasCost run) :
    HasCost fun depth budget => opposite (run depth budget) :=
  let ⟨n, b, hs⟩ := h
  ⟨n, !b, hs.opposite⟩

lemma HasCost.andThen (hfirst : HasCost first) (hsecond : HasCost second)
    (hrun : ∀ depth budget, run depth budget = if (first depth budget).1 then
      second depth (first depth budget).2 else (false, (first depth budget).2)) : HasCost run := by
  obtain ⟨m, a, hm⟩ := hfirst
  obtain ⟨n, b, hn⟩ := hsecond
  cases a with
  | true =>
    refine ⟨m + n, b, fun depth budget hb hd => ?_⟩
    rw [hrun, hm depth budget (by omega) hd, if_pos rfl,
      hn depth (budget - m) (by omega) (by omega), Nat.sub_sub]
  | false =>
    refine ⟨m, false, fun depth budget hb hd => ?_⟩
    rw [hrun, hm depth budget hb hd, if_neg Bool.false_ne_true]

lemma hasCost_checkAll {α : Type} {f : Nat → Nat → α → Bool × Nat} {xs : List α}
    (h : ∀ x ∈ xs, HasCost fun depth budget => f depth budget x) :
    HasCost fun depth budget => checkAll (f depth) budget xs := by
  induction xs with
  | nil => exact hasCost_const (b := true) fun _ _ => rfl
  | cons x xs ih =>
    rw [List.forall_mem_cons] at h
    exact h.1.andThen (ih h.2) fun depth budget => checkAll_cons (f depth) budget x xs

end HasCost

section Check

variable {v : Value} {c : Constraint} {cs : List Constraint}

lemma checkHasCost_conj (h : ∀ c ∈ cs, CheckHasCost v c) : CheckHasCost v (.conj cs) := by
  simp only [CheckHasCost, check_conj]
  exact hasCost_checkAll h

lemma checkHasCost_disj (h : ∀ c ∈ cs, CheckHasCost v c) : CheckHasCost v (.disj cs) := by
  simp only [CheckHasCost, check_disj]
  exact (hasCost_checkAll fun c hc => (h c hc).opposite).opposite

lemma checkHasCost_neg (h : CheckHasCost v c) : CheckHasCost v (.neg c) := by
  simp only [CheckHasCost, check_neg]
  exact h.opposite

lemma Spends.fix {n : Nat} {b : Bool} {body : Constraint}
    (h : Spends n b fun depth budget => check depth budget v (unfold (.fix body))) :
    Spends (n + 1) b fun depth budget => check depth budget v (.fix body) := by
  intro depth budget hn hd
  obtain ⟨depth, rfl⟩ := Nat.exists_eq_add_of_le' (show 1 ≤ depth by omega)
  have hrun := h depth (budget - 1) (by omega) (by omega)
  simp only [check_fix, if_neg (show budget ≠ 0 by omega), hrun, Nat.sub_sub, Nat.add_comm]

lemma check_fix_eq {n : Nat} {body : Constraint}
    (hleft : (check (n + 1) (n + 1) v (unfold (.fix body))).2 ≠ 0) :
    (check (n + 1) (n + 1) v (.fix body)).1 = (check (n + 1) (n + 1) v (unfold (.fix body))).1 := by
  rw [check_fix, if_neg (Nat.succ_ne_zero n), Nat.add_sub_cancel]
  exact (predicts_check (unfold (.fix body)) v (Nat.le_refl _)).answer_eq hleft

end Check

/-- The check of a closed guarded constraint spends some number of unrollings. By induction on the
height of the value, and for one value on the surface of the constraint. -/
theorem checkHasCost_of_guarded : ∀ (v : Value) (c : Constraint), c.ClosedWithin 0 →
    c.isGuardedThroughout → CheckHasCost v c
  | v, .any, _, _ | v, .never, _, _ | v, .kind k, _, _ | v, .equals w, _, _ | v, .bvar _, _, _
  | v, .ref _, _, _ | v, .var _, _, _ => hasCost_const fun depth budget => by cases depth <;> rfl
  | v, .bound r n, _, _ => by
    cases v <;> exact hasCost_const fun depth budget => by cases depth <;> rfl
  | v, .field name c, hc, h => by
    simp only [CheckHasCost, check_field]
    cases v with
    | object fields =>
      cases hw : find? name fields with
      | none => simpa only [hw] using hasCost_const fun _ _ => rfl
      | some w =>
        have := Value.height_lt_of_find? hw
        simpa only [hw] using
          checkHasCost_of_guarded w c hc (by simpa only [isGuardedThroughout] using h)
    | _ => exact hasCost_const fun _ _ => rfl
  | v, .elements c, hc, h => by
    simp only [CheckHasCost, check_elements]
    cases v with
    | array items =>
      refine hasCost_checkAll fun w hw => ?_
      have := Value.height_lt_of_mem hw
      exact checkHasCost_of_guarded w c hc (by simpa only [isGuardedThroughout] using h)
    | _ => exact hasCost_const fun _ _ => rfl
  | v, .elementAt i c, hc, h => by
    simp only [CheckHasCost, check_elementAt]
    cases v with
    | array items =>
      cases hw : items[i]? with
      | none => simpa only [hw] using hasCost_const fun _ _ => rfl
      | some w =>
        have := Value.height_lt_of_mem (List.mem_of_getElem? hw)
        simpa only [hw] using
          checkHasCost_of_guarded w c hc (by simpa only [isGuardedThroughout] using h)
    | _ => exact hasCost_const fun _ _ => rfl
  | v, .length c, hc, h => by
    simp only [CheckHasCost, check_length]
    cases v with
    | array items =>
      have : (Value.ofNat items.length).height < (Value.array items).height := by
        simp [Value.ofNat, Value.height]
      exact checkHasCost_of_guarded _ c hc (by simpa only [isGuardedThroughout] using h)
    | _ => exact hasCost_const fun _ _ => rfl
  | v, .conj cs, hc, h => by
    simp only [isGuardedThroughout, areGuardedThroughout_iff] at h
    refine checkHasCost_conj fun c hm => ?_
    have : c.surface < (conj cs).surface := by
      simpa only [surface] using Nat.lt_succ_of_le (surface_le_surfaceList hm)
    exact checkHasCost_of_guarded v c (ClosedWithin.members hc c hm) (h c hm)
  | v, .disj cs, hc, h => by
    simp only [isGuardedThroughout, areGuardedThroughout_iff] at h
    refine checkHasCost_disj fun c hm => ?_
    have : c.surface < (disj cs).surface := by
      simpa only [surface] using Nat.lt_succ_of_le (surface_le_surfaceList hm)
    exact checkHasCost_of_guarded v c (ClosedWithin.members hc c hm) (h c hm)
  | v, .neg c, hc, h => by
    have : c.surface < (neg c).surface := by
      rw [surface]
      exact Nat.lt_succ_self _
    exact checkHasCost_neg
      (checkHasCost_of_guarded v c hc (by simpa only [isGuardedThroughout] using h))
  | v, .fix body, hc, h => by
    have := surface_unfold_lt hc h
    obtain ⟨n, b, hs⟩ := checkHasCost_of_guarded v (unfold (.fix body)) (closed_unfold hc)
      (isGuardedThroughout_unfold hc h)
    exact ⟨n + 1, b, hs.fix⟩
termination_by v c => (v.height, c.surface)

def unrollsLeft (c : Constraint) (v : Value) : Nat := (check maxUnrolls maxUnrolls v c).2

/-- A closed guarded recursive constraint and its unfolding have the same members: from some budget
of unrollings on, both checks give one and the same answer. With the budget of `admits` they agree
on every value for which the check of the unfolding leaves some of the budget, also if the
constraint is not guarded or not closed. -/
theorem admits_unfold_eq (body : Constraint) (v : Value) :
    ((fix body).hasFree = false → (fix body).isGuardedThroughout →
      ∃ n b, ∀ m ≥ n, (check m m v (.fix body)).1 = b ∧
        (check m m v (unfold (.fix body))).1 = b) ∧
    ((unfold (.fix body)).unrollsLeft v ≠ 0 →
      (fix body).admits v = (unfold (.fix body)).admits v) := by
  refine ⟨fun hclosed hguarded => ?_, fun hleft => ?_⟩
  · obtain ⟨n, b, hs⟩ := checkHasCost_of_guarded v (unfold (.fix body)) (closed_unfold hclosed)
      (isGuardedThroughout_unfold hclosed hguarded)
    refine ⟨n + 1, b, fun m hm => ⟨?_, ?_⟩⟩
    · exact congrArg Prod.fst (hs.fix m m hm (Nat.le_refl m))
    · exact congrArg Prod.fst (hs m m (by omega) (Nat.le_refl m))
  · obtain ⟨n, hn⟩ : ∃ n, maxUnrolls = n + 1 := ⟨4095, rfl⟩
    rw [unrollsLeft, hn] at hleft
    rw [admits, admits, hn]
    exact check_fix_eq hleft

theorem admits_unfold_eq_tree :
    let node : Constraint := .disj [.neg (.field "parts" .any),
      .field "parts" (.elements (.conj [.bvar 0, .neg (.fix (.elements (.bvar 0)))]))]
    let tree : Constraint := .fix node
    let v : Value := .object [("parts", .array [.null, .object [("parts", .array [])]])]
    tree.admits v ∧ tree.admits v = tree.unfold.admits v ∧
      ∃ n b, ∀ m ≥ n, (check m m v tree).1 = b ∧ (check m m v tree.unfold).1 = b := by
  intro node tree v
  have heq := admits_unfold_eq node v
  exact ⟨by decide +kernel, heq.2 (by decide +kernel), heq.1 rfl rfl⟩

def checkedTwice : Constraint :=
  .fix (.disj [.kind .null, .conj [.elements (.bvar 0), .elements (.bvar 0)]])

lemma check_unfold_checkedTwice {depth budget left : Nat} {items : List Value}
    (h : checkAll (fun budget w => check depth budget w checkedTwice) budget items = (true, left)) :
    (check depth budget (.array items) checkedTwice.unfold) =
      checkAll (fun budget w => check depth budget w checkedTwice) left items := by
  have hkind : check depth budget (.array items) (.kind .null) = (false, budget) := by
    cases depth <;> rfl
  change check depth budget (.array items)
    (.disj [.kind .null, .conj [.elements checkedTwice, .elements checkedTwice]]) = _
  simp only [check_disj, checkAll_cons, hkind, opposite, check_conj_cons, check_conj_nil,
    check_elements, h, Bool.not_false, if_true]
  split_ifs <;> simp_all [checkAll, Prod.ext_iff]

lemma spends_checkedTwice (k : Nat) : Spends (2 ^ (k + 1) - 1) true fun depth budget =>
    check depth budget (Nat.repeat (fun v => .array [v]) k .null) checkedTwice := by
  induction k with
  | zero =>
    refine Spends.fix fun depth budget _ _ => ?_
    cases depth <;> rfl
  | succ k ih =>
    have hcost : 2 ^ (k + 1 + 1) - 1 = (2 ^ (k + 1) - 1) + (2 ^ (k + 1) - 1) + 1 := by
      have := Nat.one_le_two_pow (n := k + 1)
      omega
    rw [hcost]
    refine Spends.fix fun depth budget hn hd => ?_
    have hfirst := ih depth budget (by omega) hd
    have hsecond := ih depth (budget - (2 ^ (k + 1) - 1)) (by omega) (by omega)
    have hitems : checkAll (fun budget w => check depth budget w checkedTwice) budget
        [Nat.repeat (fun v => .array [v]) k .null] = (true, budget - (2 ^ (k + 1) - 1)) := by
      simp only [checkAll, hfirst]
    refine (check_unfold_checkedTwice hitems).trans ?_
    simp only [checkAll, hsecond, Nat.sub_sub]

/-- The check of this value against the recursive constraint needs one unrolling more than there
are, the check against the unfolding does not. -/
theorem admits_unfold_ne :
    let v : Value := .array [Nat.repeat (fun v => .array [v]) 10 .null, .null]
    checkedTwice.hasFree = false ∧ checkedTwice.isGuardedThroughout ∧ ¬ checkedTwice.admits v ∧
      checkedTwice.unfold.admits v := by
  obtain ⟨n, hn, hmax⟩ : ∃ n, n = 4095 ∧ maxUnrolls = n + 1 := ⟨4095, rfl, rfl⟩
  have hnull (depth budget : Nat) := spends_checkedTwice 0 depth budget
  have hdeep (depth budget : Nat) := spends_checkedTwice 10 depth budget
  generalize Nat.repeat (fun v => Value.array [v]) 10 .null = w at hdeep ⊢
  simp only [Nat.repeat, Nat.reduceAdd, Nat.reducePow, Nat.reduceSub] at hnull hdeep
  have hitems (depth budget : Nat) (hle : 2048 ≤ budget) (hdepth : budget ≤ depth) :
      checkAll (fun budget w => check depth budget w checkedTwice) budget [w, .null] =
        (true, budget - 2048) := by
    simp only [checkAll, hdeep depth budget (by omega) hdepth,
      hnull depth (budget - 2047) (by omega) (by omega), Nat.sub_sub]
  refine ⟨rfl, rfl, ?_, ?_⟩
  · have hlast : check n 0 .null checkedTwice = (false, 0) := by
      rw [hn]
      exact check_fix ..
    have hrun : check (n + 1) (n + 1) (.array [w, .null]) checkedTwice = (false, 0) := by
      refine (check_fix ..).trans (Eq.trans (if_neg (Nat.succ_ne_zero n)) ?_)
      refine (check_unfold_checkedTwice (hitems n n (by omega) (Nat.le_refl n))).trans ?_
      simp only [checkAll, hdeep n (n - 2048) (by omega) (by omega),
        show n - 2048 - 2047 = 0 by omega, hlast]
    rw [admits, hmax, hrun]
    exact Bool.false_ne_true
  · rw [admits, hmax, check_unfold_checkedTwice (hitems (n + 1) (n + 1) (by omega) (by omega)),
      hitems (n + 1) _ (by omega) (by omega)]

end Stagewise.Constraint
