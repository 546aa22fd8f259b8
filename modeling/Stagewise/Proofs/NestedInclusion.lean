import Stagewise.Proofs.NestedEntailment

/-! Inclusion between recursive constraints over kinds, bounds, fields and items. Membership is the
check without a bound on its unrollings. Where every variable is guarded, a check that succeeds has
found the meaning, and a member is found with enough unrollings. An entailment that is found by
assuming the pairs under examination therefore is an inclusion of the members. -/

set_option autoImplicit false

namespace Stagewise.Constraint

open Association

/-! ### Membership -/

def Belongs (c : Constraint) (v : Value) : Prop := ∃ n, ∀ m ≥ n, (check m m v c).1

section Equations

variable (depth budget : Nat) (v : Value) (c : Constraint)

lemma check_field (name : String) : check depth budget v (.field name c) =
    match v with
    | .object fields =>
      match find? name fields with
      | some w => check depth budget w c
      | none => (false, budget)
    | _ => (false, budget) := by
  cases depth <;> rfl

lemma check_elements : check depth budget v (.elements c) =
    match v with
    | .array items => checkAll (fun budget w => check depth budget w c) budget items
    | _ => (false, budget) := by
  cases depth <;> rfl

lemma check_elementAt (i : Nat) : check depth budget v (.elementAt i c) =
    match v with
    | .array items =>
      match items[i]? with
      | some w => check depth budget w c
      | none => (false, budget)
    | _ => (false, budget) := by
  cases depth <;> rfl

lemma check_conj (cs : List Constraint) :
    check depth budget v (.conj cs) = checkAll (check depth · v) budget cs := by
  cases depth <;> exact checkConj_eq_checkAll _ budget v cs

lemma check_conj_nil : check depth budget v (.conj []) = (true, budget) := by
  cases depth <;> rfl

lemma check_conj_cons (cs : List Constraint) : check depth budget v (.conj (c :: cs)) =
    if (check depth budget v c).1 then check depth (check depth budget v c).2 v (.conj cs)
    else (false, (check depth budget v c).2) := by
  rw [check_conj, check_conj, checkAll_cons]

lemma check_fix (body : Constraint) : check (depth + 1) budget v (.fix body) =
    if budget = 0 then (false, 0) else check depth (budget - 1) v (unfold (.fix body)) := rfl

end Equations

/-! ### A check that succeeds -/

variable {tidy : Bool} {limit s d depth budget : Nat} {ρ : Valuation} {v : Value}

section Sound

def UnrollsSoundly (tidy : Bool) (limit depth : Nat) (ρ : Valuation) : Prop :=
  ∀ {body : Constraint} {s d budget : Nat} {v : Value},
    (fix body).Stands tidy (.closed limit s d) → (Site.closed limit s d).InRange → v.height ≤ s →
      (check depth budget v (.fix body)).1 → (fix body).Means ρ v

theorem Stands.means_of_check (hfix : UnrollsSoundly tidy limit depth ρ) :
    ∀ {c : Constraint} {s d budget : Nat} {v : Value}, c.Stands tidy (.closed limit s d) →
      (Site.closed limit s d).InRange → v.height ≤ s → (check depth budget v c).1 → c.Means ρ v
  | .any, _, _, _, _, _, _, _, _ => trivial
  | .never, _, _, _, _, _, _, _, h => by cases depth <;> simp [check, checkWith] at h
  | .kind k, _, _, _, _, _, _, _, h | .equals w, _, _, _, _, _, _, _, h => by
    cases depth <;> exact h
  | .bound r n, _, _, _, v, _, _, _, h => by
    cases v with
    | number x => exact ⟨x, rfl, by cases depth <;> exact h⟩
    | _ => cases depth <;> simp [check, checkWith] at h
  | .field name c, s, d, budget, v, hc, hr, hv, h => by
    rw [check_field] at h
    split at h
    · next fields =>
      split at h
      · next w hw =>
        have hlt := Nat.lt_of_lt_of_le (Value.height_lt_of_find? hw) hv
        exact ⟨fields, w, rfl, hw, Stands.means_of_check hfix (c := c) (hc _ hlt) (hr.below hlt)
          (Nat.le_refl _) h⟩
      · simp at h
    · simp at h
  | .elements c, s, d, budget, v, hc, hr, hv, h => by
    rw [check_elements] at h
    split at h
    · next items =>
      refine ⟨items, rfl, fun w hw => ?_⟩
      obtain ⟨b, hb⟩ := exists_of_checkAll h w hw
      have hlt := Nat.lt_of_lt_of_le (Value.height_lt_of_mem hw) hv
      exact Stands.means_of_check hfix (c := c) (hc _ hlt) (hr.below hlt) (Nat.le_refl _) hb
    · simp at h
  | .elementAt i c, s, d, budget, v, hc, hr, hv, h => by
    rw [check_elementAt] at h
    split at h
    · next items =>
      split at h
      · next w hw =>
        have hlt := Nat.lt_of_lt_of_le (Value.height_lt_of_mem (List.mem_of_getElem? hw)) hv
        exact ⟨items, w, rfl, hw, Stands.means_of_check hfix (c := c) (hc _ hlt) (hr.below hlt)
          (Nat.le_refl _) h⟩
      · simp at h
    · simp at h
  | .conj cs, s, d, budget, v, hc, hr, hv, h => by
    rw [check_conj] at h
    rw [means_conj]
    intro c hm
    obtain ⟨b, hb⟩ := exists_of_checkAll h c hm
    exact Stands.means_of_check hfix (allStand_iff.mp hc.2 c hm) hr hv hb
  | .fix body, s, d, budget, v, hc, hr, hv, h => hfix hc hr hv h
  | .bvar i, _, _, _, _, hc, _, _, _ => by
    obtain ⟨_, _, hi⟩ := hc
    simp [Site.closed] at hi
  | .length _, _, _, _, _, hc, _, _, _ | .disj _, _, _, _, _, hc, _, _, _
  | .neg _, _, _, _, _, hc, _, _, _ | .ref _, _, _, _, _, hc, _, _, _
  | .var _, _, _, _, _, hc, _, _, _ => hc.elim

lemma Site.InRange.lower {k : Nat} (hr : (Site.closed limit s d).InRange) (hk : k ≤ d) :
    (Site.closed limit s k).InRange := by
  simp only [InRange, closed] at hr ⊢
  omega

lemma unrollsSoundly (depth : Nat) : UnrollsSoundly tidy limit depth ρ := by
  induction depth with
  | zero => exact fun _ _ _ h => by simp [check, checkWith] at h
  | succ depth ih =>
    intro body s d budget v hc hr hv h
    rw [check_fix] at h
    split_ifs at h
    obtain ⟨k, hk, hself, hb⟩ := hc
    have hunfold := stands_unfold hself hb hr hk
    rw [← means_unfold hself hb hr hk hv]
    exact Stands.means_of_check ih hunfold (hr.lower (Nat.le_of_lt hk)) hv h

end Sound

/-! ### A check with enough unrollings -/

def Affords (n : Nat) (run : Nat → Nat → Bool × Nat) : Prop :=
  ∀ depth budget, n ≤ depth → n ≤ budget →
    (run depth budget).1 ∧ budget ≤ (run depth budget).2 + n

lemma affords_zero {run : Nat → Nat → Bool × Nat}
    (h : ∀ depth budget, run depth budget = (true, budget)) : Affords 0 run := by
  intro depth budget _ _
  simp [h]

lemma Affords.andThen {m n : Nat} {first second run : Nat → Nat → Bool × Nat}
    (hm : Affords m first) (hn : Affords n second)
    (hrun : ∀ depth budget, run depth budget = if (first depth budget).1 then
      second depth (first depth budget).2 else (false, (first depth budget).2)) :
    Affords (m + n) run := by
  intro depth budget hd hb
  obtain ⟨hf, hleft⟩ := hm depth budget (by omega) (by omega)
  obtain ⟨hs, hleft'⟩ := hn depth (first depth budget).2 (by omega) (by omega)
  rw [hrun, if_pos hf]
  exact ⟨hs, by omega⟩

lemma Affords.fix {n : Nat} {body : Constraint}
    (h : Affords n fun depth budget => check depth budget v (unfold (.fix body))) :
    Affords (n + 1) fun depth budget => check depth budget v (.fix body) := by
  intro depth budget hd hb
  obtain ⟨depth, rfl⟩ := Nat.exists_eq_add_of_le' (Nat.le_of_add_left_le hd)
  obtain ⟨hsucceeds, hleft⟩ : (check depth (budget - 1) v (unfold (.fix body))).1 ∧
      budget - 1 ≤ (check depth (budget - 1) v (unfold (.fix body))).2 + n :=
    h depth (budget - 1) (by omega) (by omega)
  simp only [check_fix, if_neg (show budget ≠ 0 by omega)]
  exact ⟨hsucceeds, by omega⟩

lemma exists_affords_checkAll {α : Type} {f : Nat → Nat → α → Bool × Nat} {xs : List α}
    (h : ∀ x ∈ xs, ∃ n, Affords n fun depth budget => f depth budget x) :
    ∃ n, Affords n fun depth budget => checkAll (f depth) budget xs := by
  induction xs with
  | nil => exact ⟨0, affords_zero fun _ _ => rfl⟩
  | cons x xs ih =>
    rw [List.forall_mem_cons] at h
    obtain ⟨m, hm⟩ := h.1
    obtain ⟨n, hn⟩ := ih h.2
    exact ⟨m + n, hm.andThen hn fun depth budget => checkAll_cons _ budget x xs⟩

abbrev Affordable (v : Value) (c : Constraint) : Prop :=
  ∃ n, Affords n fun depth budget => check depth budget v c

def FindsMembers (tidy : Bool) (ρ : Valuation) (p : Site) : Prop :=
  ∀ (c : Constraint) (v : Value), c.Stands tidy p → v.height ≤ p.room → c.Means ρ v → Affordable v c

theorem Stands.affordable (hr : (Site.closed limit s d).InRange)
    (hpart : ∀ r < s, FindsMembers tidy ρ (.closed limit r limit))
    (hunfold : ∀ k < d, FindsMembers tidy ρ (.closed limit s k)) :
    ∀ {c : Constraint} {v : Value}, c.Stands tidy (.closed limit s d) → v.height ≤ s →
      c.Means ρ v → Affordable v c
  | .any, _, _, _, _ => ⟨0, affords_zero fun depth _ => by cases depth <;> rfl⟩
  | .kind _, _, _, _, h | .equals _, _, _, _, h =>
    ⟨0, affords_zero fun depth _ => by cases depth <;> exact Prod.ext h rfl⟩
  | .bound r n, _, _, _, h => by
    obtain ⟨x, rfl, h⟩ := h
    exact ⟨0, affords_zero fun depth _ => by cases depth <;> exact Prod.ext h rfl⟩
  | .field name c, _, hc, hv, h => by
    obtain ⟨fields, w, rfl, hw, h⟩ := h
    have hlt := Nat.lt_of_lt_of_le (Value.height_lt_of_find? hw) hv
    simpa only [Affordable, check_field, hw] using hpart _ hlt c w (hc _ hlt) (Nat.le_refl _) h
  | .elements c, _, hc, hv, h => by
    obtain ⟨items, rfl, h⟩ := h
    simp only [Affordable, check_elements]
    refine exists_affords_checkAll fun w hw => ?_
    have hlt := Nat.lt_of_lt_of_le (Value.height_lt_of_mem hw) hv
    exact hpart _ hlt c w (hc _ hlt) (Nat.le_refl _) (h w hw)
  | .elementAt i c, _, hc, hv, h => by
    obtain ⟨items, w, rfl, hw, h⟩ := h
    have hlt := Nat.lt_of_lt_of_le (Value.height_lt_of_mem (List.mem_of_getElem? hw)) hv
    simpa only [Affordable, check_elementAt, hw] using hpart _ hlt c w (hc _ hlt) (Nat.le_refl _) h
  | .conj cs, _, hc, hv, h => by
    simp only [Affordable, check_conj]
    exact exists_affords_checkAll fun c hm =>
      Stands.affordable hr hpart hunfold (allStand_iff.mp hc.2 c hm) hv (means_conj.mp h c hm)
  | .fix body, v, hc, hv, h => by
    obtain ⟨k, hk, hself, hb⟩ := hc
    obtain ⟨n, hn⟩ := hunfold k hk _ v (stands_unfold hself hb hr hk) hv
      ((means_unfold hself hb hr hk hv).mpr h)
    exact ⟨n + 1, hn.fix⟩
  | .bvar i, _, hc, _, _ => by
    obtain ⟨_, _, hi⟩ := hc
    simp [Site.closed] at hi
  | .never, _, _, _, h => h.elim
  | .length _, _, hc, _, _ | .disj _, _, hc, _, _ | .neg _, _, hc, _, _ | .ref _, _, hc, _, _
  | .var _, _, hc, _, _ => hc.elim

/-- By induction on the height of the value, and at one height on the depth of the site. -/
lemma findsMembers (hr : (Site.closed limit s d).InRange) :
    FindsMembers tidy ρ (.closed limit s d) := by
  induction s using Nat.strongRecOn generalizing d with
  | _ s ihs =>
    induction d using Nat.strongRecOn with
    | _ d ihd =>
      intro c v hc hv h
      exact Stands.affordable hr (fun r hlt => ihs r hlt (hr.below hlt))
        (fun k hk => ihd k hk (hr.lower (Nat.le_of_lt hk))) hc hv h

lemma belongs_of_affordable {c : Constraint} (h : Affordable v c) : c.Belongs v := by
  obtain ⟨n, hn⟩ := h
  exact ⟨n, fun m hm => (hn m m hm hm).1⟩

lemma belongs_iff_means {c : Constraint} (hr : (Site.closed limit s d).InRange)
    (hc : c.Stands tidy (.closed limit s d)) (hv : v.height ≤ s) : c.Belongs v ↔ c.Means ρ v := by
  refine ⟨fun ⟨n, hn⟩ => ?_, fun h => belongs_of_affordable (findsMembers hr c v hc hv h)⟩
  exact Stands.means_of_check (unrollsSoundly n) hc hr hv (hn n (Nat.le_refl n))

/-! ### Guarded recursion -/

mutual

def isStructural : Constraint → Bool
  | .kind _ | .any | .never | .bvar _ => true
  | .bound _ n => !n.isNaN
  | .field _ c | .elements c | .elementAt _ c => c.isStructural
  | .conj cs => areStructural cs
  | .fix body => body.isGuarded 0 && body.isStructural
  | .equals _ | .length _ | .disj _ | .neg _ | .ref _ | .var _ => false
termination_by structural c => c

def areStructural : List Constraint → Bool
  | [] => true
  | c :: cs => c.isStructural && areStructural cs
termination_by structural cs => cs

end

mutual

def recursions : Constraint → Nat
  | .field _ c | .elements c | .elementAt _ c | .length c | .neg c => c.recursions
  | .conj cs | .disj cs => recursionsList cs
  | .fix body => body.recursions + 1
  | _ => 0
termination_by structural c => c

def recursionsList : List Constraint → Nat
  | [] => 0
  | c :: cs => c.recursions + recursionsList cs
termination_by structural cs => cs

end

mutual

theorem depth_le_recursions : ∀ c : Constraint, c.depth ≤ c.recursions
  | .conj cs | .disj cs => by
    rw [depth, recursions]
    exact depthList_le_recursionsList cs
  | .fix body => Nat.succ_le_succ (depth_le_recursions body)
  | .kind _ | .equals _ | .bound _ _ | .field _ _ | .elements _ | .elementAt _ _ | .length _
  | .neg _ | .bvar _ | .ref _ | .var _ | .any | .never => Nat.zero_le _

theorem depthList_le_recursionsList : ∀ cs : List Constraint, depthList cs ≤ recursionsList cs
  | [] => Nat.le_refl _
  | c :: cs => by
    have := depth_le_recursions c
    have := depthList_le_recursionsList cs
    rw [depthList, recursionsList]
    omega

end

/-- The levels that are free for the variables in scope at a site: the first `guarded` of them may
not be met before a part, the others are at most `met`, and all are at most `last`. -/
structure Levels (p : Site) (guarded met last : Nat) : Prop where
  met : ∀ i k : Nat, guarded ≤ i → p.scope[i]? = some k → k ≤ met
  last : ∀ i k : Nat, p.scope[i]? = some k → k ≤ last

lemma Levels.below {p : Site} {guarded met last : Nat} (h : Levels p guarded met last) (r : Nat) :
    Levels (p.below r) 0 last last :=
  ⟨fun i k _ hk => h.last i k hk, h.last⟩

lemma Levels.inside {p : Site} {guarded met last : Nat} (h : Levels p guarded met last) (k : Nat) :
    Levels (p.inside k) (guarded + 1) met (max last (k + 1)) := by
  refine ⟨fun i j hi hj => ?_, fun i j hj => ?_⟩
  · cases i with
    | zero => omega
    | succ i => exact h.met i j (Nat.le_of_succ_le_succ hi) hj
  · cases i with
    | zero =>
      obtain rfl : k + 1 = j := Option.some.inj hj
      exact Nat.le_max_right _ _
    | succ i => exact Nat.le_trans (h.last i j hj) (Nat.le_max_left _ _)

mutual

/-- A guarded constraint whose variables are in scope may stand at a site with enough levels left. A
recursive constraint takes the level above those of its body and of the variables that may be met
there. -/
theorem stands_of_isStructural : ∀ {c : Constraint} {p : Site} {guarded met last : Nat},
    c.isStructural → c.anyVar (fun depth i => depth ≤ i) p.scope.length = false →
      (∀ i < guarded, c.isGuarded i) → Levels p guarded met last → met + c.depth ≤ p.depth →
        max last (met + c.depth) + c.recursions ≤ p.limit + c.depth → c.Stands false p
  | .kind _, _, _, _, _, _, _, _, _, _, _ | .any, _, _, _, _, _, _, _, _, _, _
  | .never, _, _, _, _, _, _, _, _, _, _ => trivial
  | .bound _ n, _, _, _, _, hc, _, _, _, _, _ => by
    rw [Stands]
    simpa [isStructural] using hc
  | .field _ c, p, _, _, _, hc, hfree, _, hl, _, hlimit
  | .elements c, p, _, _, _, hc, hfree, _, hl, _, hlimit
  | .elementAt _ c, p, _, _, _, hc, hfree, _, hl, _, hlimit => by
    intro r _
    have hle := depth_le_recursions c
    simp only [recursions, depth] at hlimit
    refine stands_of_isStructural (c := c) hc hfree (by simp) (hl.below r) ?_ ?_
    · simp only [Site.below]
      omega
    · simp only [Site.below]
      omega
  | .conj cs, _, _, _, _, hc, hfree, hguard, hl, hdepth, hlimit =>
    ⟨by simp, allStand_of_areStructural hc hfree hguard hl hdepth hlimit⟩
  | .fix body, p, guarded, met, last, hc, hfree, hguard, hl, hdepth, hlimit => by
    simp only [isStructural, Bool.and_eq_true] at hc
    simp only [depth, recursions] at hdepth hlimit
    refine ⟨met + body.depth, by omega, by simp, stands_of_isStructural (c := body) hc.2 hfree
      (fun i hi => ?_) (hl.inside _) (Nat.le_refl _) ?_⟩
    · cases i with
      | zero => exact hc.1
      | succ i => exact hguard i (Nat.lt_of_succ_lt_succ hi)
    · simp only [Site.inside]
      omega
  | .bvar i, p, guarded, met, _, _, hfree, hguard, hl, hdepth, _ => by
    have hi : i < p.scope.length := by simpa [anyVar] using hfree
    have hge : guarded ≤ i := by
      by_contra hlt
      simpa [isGuarded] using hguard i (Nat.not_le.mp hlt)
    have hk := List.getElem?_eq_getElem hi
    exact ⟨_, Nat.le_trans (hl.met i _ hge hk) (Nat.le_of_add_right_le hdepth), hk⟩
  | .equals _, _, _, _, _, hc, _, _, _, _, _ | .length _, _, _, _, _, hc, _, _, _, _, _
  | .disj _, _, _, _, _, hc, _, _, _, _, _ | .neg _, _, _, _, _, hc, _, _, _, _, _
  | .ref _, _, _, _, _, hc, _, _, _, _, _ | .var _, _, _, _, _, hc, _, _, _, _, _ => by
    simp [isStructural] at hc

theorem allStand_of_areStructural : ∀ {cs : List Constraint} {p : Site} {guarded met last : Nat},
    areStructural cs → anyVarList (fun depth i => depth ≤ i) p.scope.length cs = false →
      (∀ i < guarded, isGuardedList i cs) → Levels p guarded met last →
        met + depthList cs ≤ p.depth →
          max last (met + depthList cs) + recursionsList cs ≤ p.limit + depthList cs →
            AllStand false cs p
  | [], _, _, _, _, _, _, _, _, _, _ => trivial
  | c :: cs, p, _, _, _, hc, hfree, hguard, hl, hdepth, hlimit => by
    simp only [areStructural, Bool.and_eq_true] at hc
    simp only [anyVarList, Bool.or_eq_false_iff] at hfree
    simp only [isGuardedList, Bool.and_eq_true] at hguard
    simp only [depthList, recursionsList] at hdepth hlimit
    have hle := depth_le_recursions c
    have hle' := depthList_le_recursionsList cs
    constructor
    · exact stands_of_isStructural hc.1 hfree.1 (fun i hi => (hguard i hi).1) hl (by omega)
        (by omega)
    · exact allStand_of_areStructural hc.2 hfree.2 (fun i hi => (hguard i hi).2) hl (by omega)
        (by omega)

end

lemma stands_closed {c : Constraint} (hc : c.isStructural) (hfree : c.hasFree = false)
    (hlimit : c.recursions ≤ limit) : c.Stands false (.closed limit s limit) := by
  have hle := depth_le_recursions c
  have hl : Levels (.closed limit s limit) 0 0 0 :=
    ⟨fun _ _ _ hi => by simp [Site.closed] at hi, fun _ _ hi => by simp [Site.closed] at hi⟩
  refine stands_of_isStructural hc hfree (by simp) hl ?_ ?_
  · simp only [Site.closed]
    omega
  · simp only [Site.closed]
    omega

lemma inRange_closed (h : (s + 1) * limit < 2 ^ 63) : (Site.closed limit s limit).InRange := by
  rw [Nat.succ_mul] at h
  simp only [Site.InRange, Site.closed, List.length_nil]
  omega

lemma belongs_of_check {c : Constraint} (hc : c.isStructural) (hfree : c.hasFree = false)
    (hv : (v.height + 1) * c.recursions < 2 ^ 63) (h : (check depth budget v c).1) :
    c.Belongs v := by
  have hstands := stands_closed (s := v.height) hc hfree (Nat.le_refl _)
  have hr := inRange_closed hv
  refine (belongs_iff_means (ρ := fun _ _ => True) hr hstands (Nat.le_refl _)).mpr ?_
  exact Stands.means_of_check (unrollsSoundly depth) hstands hr (Nat.le_refl _) h

/-- An entailment that is found between guarded recursive constraints is an inclusion: the pairs
that are assumed on the way are only met again for lower values. Indices of variables are machine
words that move as signed ones: below `2 ^ 63` none of those that matter for the value wraps around.
Without recursion the bound is always met. -/
theorem belongs_of_implies {a b : Constraint} (ha : a.isStructural) (hb : b.isStructural)
    (hfa : a.hasFree = false) (hfb : b.hasFree = false) (h : a.implies b) {v : Value}
    (hv : (v.height + 1) * max a.recursions b.recursions < 2 ^ 63) (hav : a.Belongs v) :
    b.Belongs v := by
  have hsa := stands_closed (s := v.height) ha hfa (Nat.le_max_left a.recursions b.recursions)
  have hsb := stands_closed (s := v.height) hb hfb (Nat.le_max_right a.recursions b.recursions)
  have hr := inRange_closed hv
  have hmeans {c : Constraint} (hc : c.Stands false _) :=
    belongs_iff_means (ρ := fun _ _ => True) hr hc (Nat.le_refl _)
  rw [hmeans hsa] at hav
  rw [hmeans hsb]
  exact means_of_implies hr hsa hsb h (Nat.le_refl _) hav

theorem belongs_of_implies_groups :
    let groups (lead weight : Constraint) : Constraint := .fix (.field "groups" (.elements
      (.fix (.conj [.elementAt 0 lead, .elementAt 1 (.elements (.bvar 0)), .elementAt 2 weight]))))
    let narrow := groups (.bvar 1) (.conj [.kind .number, .bound .ge (Number.ofNat 1)])
    let wide := groups (.field "groups" (.elements (.elementAt 0 (.bvar 1))))
      (.bound .gt Number.zero)
    let leaf : Value := .object [("groups", .array [])]
    let group (rest : List Value) : Value := .array [leaf, .array rest, Value.ofNat 2]
    let v : Value := .object [("groups", .array [group [group []]])]
    narrow.implies wide ∧ narrow.Belongs v ∧ wide.Belongs v := by
  intro groups narrow wide leaf group v
  have himplies : narrow.implies wide := by decide +kernel
  have hchecked : (check 8 8 v narrow).1 := by decide +kernel
  have hnarrow : narrow.Belongs v := belongs_of_check rfl rfl (by decide) hchecked
  exact ⟨himplies, hnarrow, belongs_of_implies rfl rfl rfl rfl himplies (by decide) hnarrow⟩

end Stagewise.Constraint
