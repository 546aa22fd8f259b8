import Stagewise.Proofs.Entailment

/-! Recursive constraints inside one another. A constraint means something once its free variables
do. Where a variable is only met below a part of the value, the meaning of a recursive constraint is
the one solution of its equation, and unfolding keeps it.

The indices of variables are machine words, so moving them is exact only while they are small. The
depth of a value bounds the part of a constraint that matters for it, and thereby the indices. -/

set_option autoImplicit false

namespace Stagewise

open Association

inductive Component where
  | field (name : String)
  | items
  | item (index : Nat)

namespace Component

variable {q : Component} {P Q : Value → Prop} {v : Value}

def Has : Component → (Value → Prop) → Value → Prop
  | field name, P, v => ∃ fields w, v = .object fields ∧ find? name fields = some w ∧ P w
  | items, P, v => ∃ items, v = .array items ∧ ∀ w ∈ items, P w
  | item i, P, v => ∃ items w, v = .array items ∧ items[i]? = some w ∧ P w

lemma Has.mono (h : q.Has P v) (hPQ : ∀ w : Value, w.height < v.height → P w → Q w) :
    q.Has Q v := by
  cases q with
  | field name =>
    obtain ⟨fields, w, rfl, hw, hP⟩ := h
    exact ⟨fields, w, rfl, hw, hPQ w (Value.height_lt_of_find? hw) hP⟩
  | items =>
    obtain ⟨items, rfl, hP⟩ := h
    exact ⟨items, rfl, fun w hw => hPQ w (Value.height_lt_of_mem hw) (hP w hw)⟩
  | item i =>
    obtain ⟨items, w, rfl, hw, hP⟩ := h
    exact ⟨items, w, rfl, hw, hPQ w (Value.height_lt_of_mem (List.mem_of_getElem? hw)) hP⟩

lemma has_congr (hPQ : ∀ w : Value, w.height < v.height → (P w ↔ Q w)) : q.Has P v ↔ q.Has Q v :=
  ⟨fun h => h.mono fun w hw => (hPQ w hw).mp, fun h => h.mono fun w hw => (hPQ w hw).mpr⟩

lemma has_forall {α : Type} {xs : List α} {P : α → Value → Prop} (hne : xs ≠ []) :
    q.Has (fun w => ∀ x ∈ xs, P x w) v ↔ ∀ x ∈ xs, q.Has (P x) v := by
  refine ⟨fun h x hx => h.mono fun w _ hw => hw x hx, fun h => ?_⟩
  obtain ⟨x, hx⟩ := List.exists_mem_of_ne_nil xs hne
  cases q with
  | field name =>
    obtain ⟨fields, w, rfl, hw, _⟩ := h x hx
    refine ⟨fields, w, rfl, hw, fun y hy => ?_⟩
    obtain ⟨_, w', he, hw', hP⟩ := h y hy
    obtain rfl := Value.object.inj he
    exact Option.some.inj (hw.symm.trans hw') ▸ hP
  | items =>
    obtain ⟨items, rfl, _⟩ := h x hx
    refine ⟨items, rfl, fun w hw y hy => ?_⟩
    obtain ⟨_, he, hP⟩ := h y hy
    obtain rfl := Value.array.inj he
    exact hP w hw
  | item i =>
    obtain ⟨items, w, rfl, hw, _⟩ := h x hx
    refine ⟨items, w, rfl, hw, fun y hy => ?_⟩
    obtain ⟨_, w', he, hw', hP⟩ := h y hy
    obtain rfl := Value.array.inj he
    exact Option.some.inj (hw.symm.trans hw') ▸ hP

lemma Has.of_items {i : Nat} (h : items.Has Q v) (hi : (item i).Has P v) : (item i).Has Q v := by
  obtain ⟨items, w, rfl, hw, _⟩ := hi
  obtain ⟨_, he, hQ⟩ := h
  obtain rfl := Value.array.inj he
  exact ⟨items, w, rfl, hw, hQ w (List.mem_of_getElem? hw)⟩

end Component

abbrev Valuation := Nat → Value → Prop

namespace Valuation

def push (ρ : Valuation) (X : Value → Prop) : Valuation
  | 0 => X
  | i + 1 => ρ i

def pushAll (Xs : List (Value → Prop)) (ρ : Valuation) : Valuation :=
  Xs.foldr (fun X ρ => ρ.push X) ρ

lemma pushAll_add (Xs : List (Value → Prop)) (ρ : Valuation) (i : Nat) :
    pushAll Xs ρ (Xs.length + i) = ρ i := by
  induction Xs with
  | nil => simp [pushAll]
  | cons X Xs ih =>
    rw [List.length_cons, Nat.add_right_comm]
    exact ih

lemma pushAll_length (Xs : List (Value → Prop)) (ρ : Valuation) (X : Value → Prop) :
    pushAll Xs (ρ.push X) Xs.length = X :=
  pushAll_add Xs (ρ.push X) 0

lemma pushAll_of_lt {Xs : List (Value → Prop)} (ρ σ : Valuation) {i : Nat} (h : i < Xs.length) :
    pushAll Xs ρ i = pushAll Xs σ i := by
  induction Xs generalizing i with
  | nil => simp at h
  | cons X Xs ih =>
    cases i with
    | zero => rfl
    | succ i => exact ih (Nat.lt_of_succ_lt_succ h)

end Valuation

namespace Constraint

mutual

/-- Membership in a constraint, read off its form, where a valuation says what the free variables
stand for. Values are finite: a recursive constraint is unrolled once more than the value is
high. -/
def Means : Constraint → Valuation → Value → Prop
  | .any, _, _ => True
  | .never, _, _ => False
  | .kind k, _, v => v.kind.refines k
  | .equals w, _, v => v.same w
  | .bound r n, _, v => ∃ x, v = .number x ∧ r.holds x n
  | .field name c, ρ, v => (Component.field name).Has (c.Means ρ) v
  | .elements c, ρ, v => Component.items.Has (c.Means ρ) v
  | .elementAt i c, ρ, v => (Component.item i).Has (c.Means ρ) v
  | .length c, ρ, v => ∃ items, v = .array items ∧ c.Means ρ (.ofNat items.length)
  | .conj cs, ρ, v => MeansAll cs ρ v
  | .disj cs, ρ, v => MeansSome cs ρ v
  | .neg c, ρ, v => ¬ c.Means ρ v
  | .fix body, ρ, v => unrolling (fun X => body.Means (ρ.push X)) (v.height + 1) v
  | .bvar i, ρ, v => ρ i v
  | .ref _, _, _ | .var _, _, _ => True
termination_by structural c => c

def MeansAll : List Constraint → Valuation → Value → Prop
  | [], _, _ => True
  | c :: cs, ρ, v => c.Means ρ v ∧ MeansAll cs ρ v
termination_by structural cs => cs

def MeansSome : List Constraint → Valuation → Value → Prop
  | [], _, _ => False
  | c :: cs, ρ, v => c.Means ρ v ∨ MeansSome cs ρ v
termination_by structural cs => cs

end

variable {ρ σ : Valuation} {v : Value}

lemma meansAll_iff {cs : List Constraint} : MeansAll cs ρ v ↔ ∀ c ∈ cs, c.Means ρ v := by
  induction cs with
  | nil => simp [MeansAll]
  | cons c cs ih => simp [MeansAll, ih]

@[simp] lemma means_conj {cs : List Constraint} :
    (conj cs).Means ρ v ↔ ∀ c ∈ cs, c.Means ρ v := by
  simp [Means, meansAll_iff]

/-! ### Unrolling -/

def LooksLower (height : Nat) (step : (Value → Prop) → Value → Prop) : Prop :=
  ∀ (X Y : Value → Prop) (v : Value), v.height ≤ height →
    (∀ w : Value, w.height < v.height → (X w ↔ Y w)) → (step X v ↔ step Y v)

section Unrolling

variable {height : Nat} {step step' : (Value → Prop) → Value → Prop}
  (hstep : LooksLower height step)
include hstep

lemma unrolling_congr_lower
    (h : ∀ (X : Value → Prop) (v : Value), v.height ≤ height → (step X v ↔ step' X v)) (k : Nat) :
    ∀ v : Value, v.height ≤ height → (unrolling step k v ↔ unrolling step' k v) := by
  induction k with
  | zero => exact fun _ _ => Iff.rfl
  | succ k ih =>
    intro v hv
    refine Iff.trans ?_ (h _ v hv)
    exact hstep _ _ v hv fun w hw => ih w (by omega)

lemma unrolling_stable (j k : Nat) : ∀ v : Value, v.height ≤ height → v.height < j →
    v.height < k → (unrolling step j v ↔ unrolling step k v) := by
  induction j generalizing k with
  | zero => exact fun v _ hj => absurd hj (Nat.not_lt_zero _)
  | succ j ih =>
    intro v hv hj hk
    cases k with
    | zero => exact absurd hk (Nat.not_lt_zero _)
    | succ k =>
      exact hstep _ _ v hv fun w hw => ih k w (by omega) (by omega) (by omega)

lemma unrolling_iff (hv : v.height ≤ height) : unrolling step (v.height + 1) v ↔
    step (fun w => unrolling step (w.height + 1) w) v :=
  hstep _ _ v hv fun w hw => unrolling_stable hstep _ _ w (by omega) hw (Nat.lt_succ_self _)

end Unrolling

/-! ### Places -/

/-- Where a constraint stands: how many parts deep it is looked at, how deep recursive constraints
are nested there above every part, and how deep those are nested that the variables in scope stand
for. Below a part the depth starts again from the limit. -/
structure Site where
  limit : Nat
  room : Nat
  depth : Nat
  scope : List Nat

namespace Site

def inside (p : Site) (k : Nat) : Site := { p with depth := k, scope := (k + 1) :: p.scope }

def below (p : Site) (room : Nat) : Site := { p with room := room, depth := p.limit }

def withDepth (p : Site) (depth : Nat) : Site := { p with depth := depth }

def withScope (p : Site) (scope : List Nat) : Site := { p with scope := scope }

def InRange (p : Site) : Prop := p.scope.length + p.depth + p.room * p.limit < 2 ^ 63

structure Le (p q : Site) : Prop where
  limit : q.limit = p.limit
  room : q.room ≤ p.room
  depth : p.depth ≤ q.depth
  scope : ∀ i k : Nat, p.scope[i]? = some k → ∃ j ≤ k, q.scope[i]? = some j

variable {p q : Site}

lemma Le.of_depth_le {p : Site} {d e : Nat} (h : d ≤ e) : (p.withDepth d).Le (p.withDepth e) :=
  ⟨rfl, Nat.le_refl _, h, fun _ k hk => ⟨k, Nat.le_refl k, hk⟩⟩

lemma Le.inside (h : p.Le q) (k : Nat) : (p.inside k).Le (q.inside k) := by
  refine ⟨h.limit, h.room, Nat.le_refl k, fun i j hj => ?_⟩
  cases i with
  | zero => exact ⟨j, Nat.le_refl j, hj⟩
  | succ i => exact h.scope i j hj

lemma Le.below (h : p.Le q) (r : Nat) : (p.below r).Le (q.below r) :=
  ⟨h.limit, Nat.le_refl r, Nat.le_of_eq h.limit.symm, h.scope⟩

lemma InRange.inside (h : p.InRange) {k : Nat} (hk : k < p.depth) : (p.inside k).InRange := by
  simp only [InRange, Site.inside, List.length_cons] at h ⊢
  omega

lemma InRange.below (h : p.InRange) {r : Nat} (hr : r < p.room) : (p.below r).InRange := by
  have hmul := Nat.mul_le_mul_right p.limit (Nat.succ_le_of_lt hr)
  rw [Nat.succ_mul] at hmul
  simp only [InRange, Site.below] at h ⊢
  omega

end Site

mutual

def hasComponent : Constraint → Bool
  | .field _ _ | .elements _ | .elementAt _ _ => true
  | .conj cs => haveComponent cs
  | .fix body => body.hasComponent
  | _ => false
termination_by structural c => c

def haveComponent : List Constraint → Bool
  | [] => false
  | c :: cs => c.hasComponent || haveComponent cs
termination_by structural cs => cs

end

lemma haveComponent_iff {cs : List Constraint} : haveComponent cs ↔ ∃ c ∈ cs, c.hasComponent := by
  induction cs with
  | nil => simp [haveComponent]
  | cons c cs ih => simp [haveComponent, ih]

mutual

/-- Whether a constraint of kinds, bounds, fields, items and recursion may stand at a site, as far
as it is looked at. A variable stands for a constraint that is nested deeper than the site allows
until a part is passed, so it is met below a part only. In a tidy one no conjunction has two
statements about all items, and every recursive constraint says something of a part. -/
def Stands (tidy : Bool) : Constraint → Site → Prop
  | .kind _, _ | .any, _ | .never, _ => True
  | .equals v, _ => ∃ x, v = .number x ∧ x.isNaN = false
  | .bound _ n, _ => n.isNaN = false
  | .field _ c, p | .elements c, p | .elementAt _ c, p => ∀ r < p.room, c.Stands tidy (p.below r)
  | .conj cs, p => (tidy → cs.countP isElements ≤ 1) ∧ AllStand tidy cs p
  | .fix body, p => ∃ k < p.depth, (tidy → body.hasComponent) ∧ body.Stands tidy (p.inside k)
  | .bvar i, p => ∃ k ≤ p.depth, p.scope[i]? = some k
  | .length _, _ | .disj _, _ | .neg _, _ | .ref _, _ | .var _, _ => False
termination_by structural c => c

def AllStand (tidy : Bool) : List Constraint → Site → Prop
  | [], _ => True
  | c :: cs, p => c.Stands tidy p ∧ AllStand tidy cs p
termination_by structural cs => cs

end

section Stands

variable {tidy : Bool} {p q : Site}

lemma allStand_iff {cs : List Constraint} :
    AllStand tidy cs p ↔ ∀ c ∈ cs, c.Stands tidy p := by
  induction cs with
  | nil => simp [AllStand]
  | cons c cs ih => simp [AllStand, ih]

lemma AllStand.imp {t : Bool} {cs : List Constraint} (h : AllStand tidy cs p)
    (himp : ∀ c ∈ cs, c.Stands tidy p → c.Stands t q) : AllStand t cs q :=
  allStand_iff.mpr fun c hc => himp c hc (allStand_iff.mp h c hc)

lemma stands_conj {cs : List Constraint} : (conj cs).Stands tidy p ↔
    (tidy → cs.countP isElements ≤ 1) ∧ ∀ c ∈ cs, c.Stands tidy p := by
  rw [Stands, allStand_iff]

theorem Stands.mono : ∀ {c : Constraint} {p q : Site}, c.Stands tidy p → p.Le q → c.Stands tidy q
  | .kind _, _, _, _, _ | .any, _, _, _, _ | .never, _, _, _, _ => trivial
  | .equals _, _, _, h, _ | .bound _ _, _, _, h, _ => h
  | .field _ c, _, _, h, hpq | .elements c, _, _, h, hpq | .elementAt _ c, _, _, h, hpq =>
    fun r hr => Stands.mono (c := c) (h r (Nat.lt_of_lt_of_le hr hpq.room)) (hpq.below r)
  | .conj cs, _, _, h, hpq => ⟨h.1, h.2.imp fun _ _ h => h.mono hpq⟩
  | .fix _, _, _, h, hpq => by
    obtain ⟨k, hk, hc, h⟩ := h
    exact ⟨k, Nat.lt_of_lt_of_le hk hpq.depth, hc, h.mono (hpq.inside k)⟩
  | .bvar i, _, _, h, hpq => by
    obtain ⟨k, hk, hi⟩ := h
    obtain ⟨j, hjk, hj⟩ := hpq.scope i k hi
    exact ⟨j, Nat.le_trans hjk (Nat.le_trans hk hpq.depth), hj⟩
  | .length _, _, _, h, _ | .disj _, _, _, h, _ | .neg _, _, _, h, _ | .ref _, _, _, h, _
  | .var _, _, _, h, _ => h.elim

theorem Stands.of_tidy : ∀ {c : Constraint} {p : Site}, c.Stands true p → c.Stands false p
  | .kind _, _, _ | .any, _, _ | .never, _, _ => trivial
  | .equals _, _, h | .bound _ _, _, h | .bvar _, _, h => h
  | .field _ c, _, h | .elements c, _, h | .elementAt _ c, _, h =>
    fun r hr => Stands.of_tidy (c := c) (h r hr)
  | .conj cs, _, h => ⟨by simp, h.2.imp fun _ _ => Stands.of_tidy⟩
  | .fix _, _, h => by
    obtain ⟨k, hk, _, h⟩ := h
    exact ⟨k, hk, by simp, h.of_tidy⟩
  | .length _, _, h | .disj _, _, h | .neg _, _, h | .ref _, _, h | .var _, _, h => h.elim

end Stands

/-! ### What the meaning depends on -/

section Congruence

variable {tidy : Bool}

/-- The valuations agree on the values that a constraint at the site asks for when it is held
against a value of this height: on lower ones only, if the variable may not be met yet. -/
def AgreeAt (p : Site) (height : Nat) (ρ σ : Valuation) : Prop :=
  ∀ i k : Nat, p.scope[i]? = some k → ∀ w : Value, w.height ≤ height →
    k ≤ p.depth ∨ w.height < height → (ρ i w ↔ σ i w)

lemma AgreeAt.lower {p : Site} {m n : Nat} (h : AgreeAt p n ρ σ) (hmn : m ≤ n) :
    AgreeAt p m ρ σ := by
  intro i k hk w hw hd
  exact h i k hk w (by omega) (hd.imp_right fun h => by omega)

lemma AgreeAt.below {p : Site} {m n r : Nat} (h : AgreeAt p n ρ σ) (hmn : m < n) :
    AgreeAt (p.below r) m ρ σ :=
  fun i k hk w hw _ => h i k hk w (by omega) (Or.inr (by omega))

lemma AgreeAt.inside {p : Site} {n k : Nat} (h : AgreeAt p n ρ σ) (hk : k < p.depth)
    (X : Value → Prop) : AgreeAt (p.inside k) n (ρ.push X) (σ.push X) := by
  intro i j hj w hw hd
  cases i with
  | zero => exact Iff.rfl
  | succ i => exact h i j hj w hw (hd.imp_left fun h => Nat.le_trans h (Nat.le_of_lt hk))

lemma agreeAt_push {p : Site} {n k : Nat} {X Y : Value → Prop}
    (h : ∀ w : Value, w.height < n → (X w ↔ Y w)) :
    AgreeAt (p.inside k) n (ρ.push X) (ρ.push Y) := by
  intro i j hj w hw hd
  cases i with
  | zero =>
    obtain rfl : k + 1 = j := by simpa [Site.inside] using hj
    exact h w (hd.resolve_left (Nat.not_succ_le_self k))
  | succ i => exact Iff.rfl

theorem Stands.means_congr : ∀ {c : Constraint} {p : Site} {ρ σ : Valuation} {v : Value},
    c.Stands tidy p → v.height ≤ p.room → AgreeAt p v.height ρ σ → (c.Means ρ v ↔ c.Means σ v)
  | .field _ c, p, _, _, _, h, hv, ha | .elements c, p, _, _, _, h, hv, ha
  | .elementAt _ c, p, _, _, _, h, hv, ha =>
    Component.has_congr fun w hw =>
      Stands.means_congr (c := c) (h w.height (Nat.lt_of_lt_of_le hw hv)) (Nat.le_refl _)
        (ha.below hw)
  | .conj cs, _, _, _, _, h, hv, ha => by
    rw [means_conj, means_conj]
    exact forall₂_congr fun c hc => (allStand_iff.mp h.2 c hc).means_congr hv ha
  | .fix body, p, ρ, σ, v, h, hv, ha => by
    obtain ⟨k, hk, _, h⟩ := h
    have hlower : LooksLower v.height fun X => body.Means (ρ.push X) := by
      intro X Y w hw hXY
      exact h.means_congr (Nat.le_trans hw hv) (agreeAt_push hXY)
    refine unrolling_congr_lower hlower (fun X w hw => ?_) _ v (Nat.le_refl _)
    exact h.means_congr (Nat.le_trans hw hv) ((ha.lower hw).inside hk X)
  | .bvar i, _, _, _, v, h, _, ha => by
    obtain ⟨k, hk, hi⟩ := h
    exact ha i k hi v (Nat.le_refl _) (Or.inl hk)
  | .kind _, _, _, _, _, _, _, _ | .equals _, _, _, _, _, _, _, _ | .bound _ _, _, _, _, _, _, _, _
  | .any, _, _, _, _, _, _, _ | .never, _, _, _, _, _, _, _ => Iff.rfl
  | .length _, _, _, _, _, h, _, _ | .disj _, _, _, _, _, h, _, _ | .neg _, _, _, _, _, h, _, _
  | .ref _, _, _, _, _, h, _, _ | .var _, _, _, _, _, h, _, _ => h.elim

variable {p : Site} {body : Constraint} {k : Nat}

lemma Stands.looksLower (h : body.Stands tidy (p.inside k)) (ρ : Valuation) :
    LooksLower p.room fun X => body.Means (ρ.push X) :=
  fun _ _ _ hv hXY => h.means_congr hv (agreeAt_push hXY)

lemma means_fix_iff (h : body.Stands tidy (p.inside k)) (hv : v.height ≤ p.room) :
    (fix body).Means ρ v ↔ body.Means (ρ.push ((fix body).Means ρ)) v :=
  unrolling_iff (h.looksLower ρ) hv

lemma means_fix_congr {body' : Constraint} (h : body.Stands tidy (p.inside k))
    (hmean : ∀ (ρ : Valuation) (v : Value), v.height ≤ p.room → (body.Means ρ v ↔ body'.Means ρ v))
    (hv : v.height ≤ p.room) : (fix body).Means ρ v ↔ (fix body').Means ρ v :=
  unrolling_congr_lower (h.looksLower ρ) (fun _ w hw => hmean _ w hw) _ v hv

end Congruence

/-! ### Substitution -/

section Substitution

variable {tidy : Bool} {f : Nat → Nat → Constraint} {skip : Nat → Nat → Bool} {o p : Site}
  {Δ ks : List Nat}

/-- The site `p` is below `o`, inside as many recursive constraints as `ks` has entries. The scope
of `o` is to be replaced by `Δ`. -/
structure Under (o : Site) (Δ ks : List Nat) (p : Site) : Prop where
  limit : p.limit = o.limit
  room : p.room ≤ o.room
  scope : p.scope = ks ++ o.scope
  inRange : p.InRange
  inRange' : (p.withScope (ks ++ Δ)).InRange

lemma Under.inside (h : Under o Δ ks p) {k : Nat} (hk : k < p.depth) :
    Under o Δ ((k + 1) :: ks) (p.inside k) :=
  ⟨h.limit, h.room, congrArg ((k + 1) :: ·) h.scope, h.inRange.inside hk, h.inRange'.inside hk⟩

lemma Under.below (h : Under o Δ ks p) {r : Nat} (hr : r < p.room) :
    Under o Δ ks (p.below r) :=
  ⟨h.limit, Nat.le_trans (Nat.le_of_lt hr) h.room, h.scope, h.inRange.below hr,
    h.inRange'.below hr⟩

structure Moves (tidy : Bool) (f : Nat → Nat → Constraint) (skip : Nat → Nat → Bool) (o : Site)
    (Δ : List Nat) : Prop where
  stands : ∀ {ks : List Nat} {p : Site} {i k : Nat}, Under o Δ ks p → p.scope[i]? = some k →
    k ≤ p.depth → skip ks.length i = false →
      (f ks.length i).Stands tidy (p.withScope (ks ++ Δ))
  isElements : ∀ d i, (f d i).isElements = false

theorem hasComponent_replaceVars : ∀ {c : Constraint} (d : Nat), c.hasComponent →
    (c.replaceVars f d).hasComponent
  | .field _ _, _, _ | .elements _, _, _ | .elementAt _ _, _, _ => rfl
  | .conj cs, d, h => by
    rw [hasComponent, haveComponent_iff] at h
    obtain ⟨c, hc, h⟩ := h
    rw [replaceVars, hasComponent, haveComponent_iff, replaceVarsList_eq_map]
    exact ⟨_, List.mem_map_of_mem hc, hasComponent_replaceVars d h⟩
  | .fix body, d, h => by
    simpa only [replaceVars, hasComponent] using
      hasComponent_replaceVars (c := body) (d + 1) (by simpa only [hasComponent] using h)
  | .kind _, _, h | .equals _, _, h | .bound _ _, _, h | .length _, _, h | .disj _, _, h
  | .neg _, _, h | .bvar _, _, h | .ref _, _, h | .var _, _, h | .any, _, h | .never, _, h => by
    simp [hasComponent] at h

lemma countP_replaceVarsList_le (hf : ∀ d i, (f d i).isElements = false) (d : Nat)
    (cs : List Constraint) :
    (replaceVarsList f d cs).countP isElements ≤ cs.countP isElements := by
  induction cs with
  | nil => simp [replaceVarsList]
  | cons c cs ih =>
    have hc : (c.replaceVars f d).isElements → c.isElements := by
      cases c with
      | bvar i => simp [replaceVars, hf d i]
      | _ => exact id
    rw [replaceVarsList, List.countP_cons, List.countP_cons]
    split_ifs with h h'
    · omega
    · exact absurd (hc h) h'
    · omega
    · omega

theorem Stands.replaceVars (hf : Moves tidy f skip o Δ) :
    ∀ {c : Constraint} {ks : List Nat} {p : Site}, Under o Δ ks p → c.Stands tidy p →
      c.anyVar skip ks.length = false →
        (c.replaceVars f ks.length).Stands tidy (p.withScope (ks ++ Δ))
  | .field _ c, ks, p, hu, h, hs | .elements c, ks, p, hu, h, hs
  | .elementAt _ c, ks, p, hu, h, hs =>
    fun r hr => Stands.replaceVars hf (c := c) (hu.below hr) (h r hr) hs
  | .conj cs, ks, p, hu, h, hs => by
    refine ⟨fun ht => Nat.le_trans (countP_replaceVarsList_le hf.isElements _ cs) (h.1 ht), ?_⟩
    rw [allStand_iff, replaceVarsList_eq_map, List.forall_mem_map]
    exact fun c hc => (allStand_iff.mp h.2 c hc).replaceVars hf hu (anyVarList_eq_false.mp hs c hc)
  | .fix body, ks, p, hu, h, hs => by
    obtain ⟨k, hk, hc, h⟩ := h
    exact ⟨k, hk, fun ht => hasComponent_replaceVars _ (hc ht),
      Stands.replaceVars hf (c := body) (hu.inside hk) h hs⟩
  | .bvar i, ks, p, hu, h, hs => by
    obtain ⟨k, hk, hi⟩ := h
    exact hf.stands hu hi hk hs
  | .kind _, _, _, _, _, _ | .any, _, _, _, _, _ | .never, _, _, _, _, _ => trivial
  | .equals _, _, _, _, h, _ | .bound _ _, _, _, _, h, _ => h
  | .length _, _, _, _, h, _ | .disj _, _, _, _, h, _ | .neg _, _, _, _, h, _
  | .ref _, _, _, _, h, _ | .var _, _, _, _, h, _ => h.elim

def Interprets (f : Nat → Nat → Constraint) (skip : Nat → Nat → Bool) (o : Site) (Δ : List Nat)
    (ρ σ : Valuation) : Prop :=
  ∀ {ks : List Nat} {Xs : List (Value → Prop)} {p : Site} {i k : Nat} {w : Value},
    Under o Δ ks p → p.scope[i]? = some k → k ≤ p.depth → skip ks.length i = false →
      Xs.length = ks.length → w.height ≤ p.room →
        ((f ks.length i).Means (.pushAll Xs ρ) w ↔ Valuation.pushAll Xs σ i w)

theorem Stands.means_replaceVars (hf : Interprets f skip o Δ ρ σ) :
    ∀ {c : Constraint} {ks : List Nat} (Xs : List (Value → Prop)) {p : Site} {v : Value},
      Under o Δ ks p → c.Stands tidy p → c.anyVar skip ks.length = false →
        Xs.length = ks.length → v.height ≤ p.room →
          ((c.replaceVars f ks.length).Means (.pushAll Xs ρ) v ↔ c.Means (.pushAll Xs σ) v)
  | .field _ c, ks, Xs, p, v, hu, h, hs, hX, hv | .elements c, ks, Xs, p, v, hu, h, hs, hX, hv
  | .elementAt _ c, ks, Xs, p, v, hu, h, hs, hX, hv =>
    Component.has_congr fun w hw =>
      have hr := Nat.lt_of_lt_of_le hw hv
      Stands.means_replaceVars hf (c := c) Xs (hu.below hr) (h w.height hr) hs hX (Nat.le_refl _)
  | .conj cs, ks, Xs, p, v, hu, h, hs, hX, hv => by
    rw [Constraint.replaceVars, means_conj, means_conj, replaceVarsList_eq_map, List.forall_mem_map]
    exact forall₂_congr fun c hc => (allStand_iff.mp h.2 c hc).means_replaceVars hf Xs hu
      (anyVarList_eq_false.mp hs c hc) hX hv
  | .fix body, ks, Xs, p, v, hu, h, hs, hX, hv => by
    obtain ⟨k, hk, _, h⟩ := h
    refine (unrolling_congr_lower (h.looksLower (.pushAll Xs σ)) (fun X w hw => ?_) _ v hv).symm
    exact (Stands.means_replaceVars hf (c := body) (X :: Xs) (hu.inside hk) h hs
      (congrArg (· + 1) hX) hw).symm
  | .bvar i, ks, Xs, p, v, hu, h, hs, hX, hv => by
    obtain ⟨k, hk, hi⟩ := h
    exact hf hu hi hk hs hX hv
  | .kind _, _, _, _, _, _, _, _, _, _ | .equals _, _, _, _, _, _, _, _, _, _
  | .bound _ _, _, _, _, _, _, _, _, _, _ | .any, _, _, _, _, _, _, _, _, _
  | .never, _, _, _, _, _, _, _, _, _ => Iff.rfl
  | .length _, _, _, _, _, _, h, _, _, _ | .disj _, _, _, _, _, _, h, _, _, _
  | .neg _, _, _, _, _, _, h, _, _, _ | .ref _, _, _, _, _, _, h, _, _, _
  | .var _, _, _, _, _, _, h, _, _, _ => h.elim

end Substitution

theorem anyVar_false (d : Nat) : ∀ c : Constraint, c.anyVar (fun _ _ => false) d = false
  | .fix body => by rw [anyVar, anyVar_false (d + 1) body]
  | .field _ c | .elements c | .length c | .elementAt _ c | .neg c => by
    rw [anyVar, anyVar_false d c]
  | .conj cs | .disj cs => by rw [anyVar, anyVarList_eq_false.mpr fun c _ => anyVar_false d c]
  | .bvar _ | .kind _ | .equals _ | .bound _ _ | .ref _ | .var _ | .any | .never => rfl

/-! ### Moving the free variables -/

section Lift

variable {tidy : Bool} {Γ : List Nat} {c : Constraint} {p : Site}

lemma movedIndex_natCast {i n : Nat} (h : i + n < 2 ^ 63) : movedIndex n i = i + n := by
  simp only [movedIndex, Int.bmod]
  omega

lemma movedIndex_neg_one {i : Nat} (h : i < 2 ^ 63) : movedIndex (-1) i = i - 1 := by
  simp only [movedIndex, Int.bmod]
  omega

lemma Under.index_lt {o p : Site} {Δ ks : List Nat} {i k : Nat} (h : Under o Δ ks p)
    (hi : p.scope[i]? = some k) : i < ks.length + o.scope.length := by
  rw [h.scope] at hi
  simpa using (List.getElem?_eq_some_iff.mp hi).1

lemma Under.length_lt {o p : Site} {Δ ks : List Nat} (h : Under o Δ ks p) :
    ks.length + o.scope.length < 2 ^ 63 ∧ ks.length + Δ.length < 2 ^ 63 := by
  have hr := h.inRange
  have hr' := h.inRange'
  rw [Site.InRange, h.scope] at hr
  simp only [Site.InRange, Site.withScope, List.length_append] at hr hr'
  omega

lemma moves_lift (o : Site) (ls : List Nat) : Moves tidy (fun depth i =>
    .bvar (if depth ≤ i then movedIndex ls.length i else i)) (fun _ _ => false) o
      (ls ++ o.scope) := by
  refine ⟨fun {ks p i k} hu hi hk _ => ⟨k, hk, ?_⟩, fun _ _ => rfl⟩
  have hlt := hu.index_lt hi
  have hlen := hu.length_lt.2
  rw [List.length_append] at hlen
  rw [hu.scope] at hi
  simp only [Site.withScope]
  split_ifs with hd
  · rw [movedIndex_natCast (by omega), List.getElem?_append_right (by omega),
      List.getElem?_append_right (by omega), ← hi, List.getElem?_append_right hd]
    congr 1
    omega
  · rw [List.getElem?_append_left (by omega)] at hi ⊢
    exact hi

lemma interprets_lift (o : Site) {ls : List Nat} {Ys : List (Value → Prop)}
    (hls : Ys.length = ls.length) : Interprets (fun depth i =>
      .bvar (if depth ≤ i then movedIndex ls.length i else i)) (fun _ _ => false) o (ls ++ o.scope)
        (.pushAll Ys ρ) ρ := by
  intro ks Xs p i k w hu hi hk _ hX hw
  have hlt := hu.index_lt hi
  have hlen := hu.length_lt.2
  rw [List.length_append] at hlen
  simp only [Means]
  split_ifs with hd
  · obtain ⟨j, rfl⟩ := Nat.exists_eq_add_of_le hd
    rw [movedIndex_natCast (by omega), ← hX, ← hls, Nat.add_assoc, Nat.add_comm j,
      Valuation.pushAll_add, Valuation.pushAll_add, Valuation.pushAll_add]
  · rw [Valuation.pushAll_of_lt _ ρ (by omega)]

lemma under_lift {ls : List Nat} (hr : (p.withScope (ls ++ p.scope)).InRange) :
    Under p (ls ++ p.scope) [] p := by
  refine ⟨rfl, Nat.le_refl _, rfl, ?_, hr⟩
  simp only [Site.InRange, Site.withScope, List.length_append] at hr ⊢
  omega

lemma Stands.lift {ls : List Nat} (h : c.Stands tidy p)
    (hr : (p.withScope (ls ++ p.scope)).InRange) :
    (c.lift ls.length).Stands tidy (p.withScope (ls ++ p.scope)) :=
  h.replaceVars (moves_lift p ls) (under_lift hr) (anyVar_false _ c)

lemma Stands.means_lift {ls : List Nat} {Ys : List (Value → Prop)} (h : c.Stands tidy p)
    (hr : (p.withScope (ls ++ p.scope)).InRange) (hls : Ys.length = ls.length)
    (hv : v.height ≤ p.room) : (c.lift ls.length).Means (.pushAll Ys ρ) v ↔ c.Means ρ v :=
  Stands.means_replaceVars (interprets_lift p hls) [] (under_lift hr) h (anyVar_false _ c) rfl hv

end Lift

/-! ### Leaving a recursive constraint -/

section Leave

variable {tidy : Bool} {body : Constraint} {p : Site} {k : Nat}

lemma under_leave (hr : p.InRange) (hk : k < p.depth) :
    Under (p.inside k) p.scope [] (p.inside k) := by
  refine ⟨rfl, Nat.le_refl _, rfl, hr.inside hk, ?_⟩
  simp only [Site.InRange, Site.withScope, Site.inside, List.nil_append] at hr ⊢
  omega

lemma getElem?_leave {ks : List Nat} {q : Site} {i j : Nat} (hu : Under (p.inside k) p.scope ks q)
    (hi : q.scope[i]? = some j) (hne : i ≠ ks.length) :
    (ks ++ p.scope)[if ks.length < i then i - 1 else i]? = some j := by
  rw [hu.scope] at hi
  split_ifs with hlt
  · rw [List.getElem?_append_right (by omega)] at hi ⊢
    obtain ⟨m, rfl⟩ := Nat.exists_eq_add_of_lt hlt
    rw [show ks.length + m + 1 - ks.length = m + 1 by omega] at hi
    rwa [show ks.length + m + 1 - 1 - ks.length = m by omega]
  · rw [List.getElem?_append_left (by omega)] at hi ⊢
    exact hi

lemma pushAll_leave (X : Value → Prop) {Xs : List (Value → Prop)} {i : Nat} (hne : i ≠ Xs.length) :
    Valuation.pushAll Xs ρ (if Xs.length < i then i - 1 else i) =
      Valuation.pushAll Xs (ρ.push X) i := by
  split_ifs with hlt
  · obtain ⟨m, rfl⟩ := Nat.exists_eq_add_of_lt hlt
    rw [Nat.add_sub_cancel, Valuation.pushAll_add, Nat.add_assoc, Valuation.pushAll_add]
    rfl
  · exact Valuation.pushAll_of_lt _ _ (by omega)

lemma movedIndex_leave {ks : List Nat} {q : Site} {i j : Nat} (hu : Under (p.inside k) p.scope ks q)
    (hi : q.scope[i]? = some j) (hne : i ≠ ks.length) :
    (if ks.length ≤ i then movedIndex (-1) i else i) = if ks.length < i then i - 1 else i := by
  have hlt := hu.index_lt hi
  have hlen := hu.length_lt.1
  split_ifs with h h'
  · exact movedIndex_neg_one (by omega)
  · omega
  · omega
  · rfl

lemma moves_drop (p : Site) (k : Nat) : Moves tidy (fun depth i =>
    .bvar (if depth ≤ i then movedIndex (-1) i else i)) (fun depth i => i == depth) (p.inside k)
      p.scope := by
  refine ⟨fun {ks q i j} hu hi hj hs => ⟨j, hj, ?_⟩, fun _ _ => rfl⟩
  have hne : i ≠ ks.length := by simpa using hs
  rw [movedIndex_leave hu hi hne]
  exact getElem?_leave hu hi hne

lemma interprets_drop (p : Site) (k : Nat) (X : Value → Prop) : Interprets (fun depth i =>
    .bvar (if depth ≤ i then movedIndex (-1) i else i)) (fun depth i => i == depth) (p.inside k)
      p.scope ρ (ρ.push X) := by
  intro ks Xs q i j w hu hi hj hs hX hw
  have hne : i ≠ ks.length := by simpa using hs
  rw [Means, movedIndex_leave hu hi hne, ← hX, pushAll_leave X (hX ▸ hne)]

section Drop

variable (h : body.Stands tidy (p.inside k)) (hr : p.InRange) (hk : k < p.depth)
  (hself : body.mentionsSelf = false)
include h hr hk hself

lemma Stands.drop : (body.lift (-1)).Stands tidy (p.withDepth k) :=
  h.replaceVars (moves_drop p k) (under_leave hr hk) hself

lemma Stands.means_drop (X : Value → Prop) (hv : v.height ≤ p.room) :
    (body.lift (-1)).Means ρ v ↔ body.Means (ρ.push X) v :=
  Stands.means_replaceVars (interprets_drop p k X) [] (under_leave hr hk) h hself rfl hv

end Drop

section Unfold

variable (hself : tidy → body.hasComponent) (h : body.Stands tidy (p.inside k))
include hself h

lemma stands_fix_under {ks : List Nat} {q : Site} {j : Nat}
    (hu : Under (p.inside k) p.scope ks q) (hi : q.scope[ks.length]? = some j) (hj : j ≤ q.depth) :
    (fix body).Stands tidy (q.withScope p.scope) := by
  rw [hu.scope, List.getElem?_append_right (Nat.le_refl _), Nat.sub_self] at hi
  obtain rfl : k + 1 = j := Option.some.inj hi
  refine ⟨k, hj, hself, h.mono ⟨hu.limit, hu.room, Nat.le_refl _, fun i j hj => ?_⟩⟩
  exact ⟨j, Nat.le_refl _, hj⟩

lemma moves_unfold : Moves tidy (fun depth i => if i = depth then (fix body).lift depth
    else .bvar (if depth < i then i - 1 else i)) (fun _ _ => false) (p.inside k) p.scope := by
  refine ⟨fun {ks q i j} hu hi hj _ => ?_, fun d i => by split_ifs <;> rfl⟩
  by_cases hne : i = ks.length
  · subst hne
    rw [if_pos rfl]
    exact (stands_fix_under hself h hu hi hj).lift hu.inRange'
  · rw [if_neg hne]
    exact ⟨j, hj, getElem?_leave hu hi hne⟩

lemma interprets_unfold (ρ : Valuation) : Interprets (fun depth i =>
    if i = depth then (fix body).lift depth else .bvar (if depth < i then i - 1 else i))
      (fun _ _ => false) (p.inside k) p.scope ρ (ρ.push ((fix body).Means ρ)) := by
  intro ks Xs q i j w hu hi hj _ hX hw
  simp only
  by_cases hne : i = ks.length
  · subst hne
    have hlift := (stands_fix_under hself h hu hi hj).means_lift (ρ := ρ) hu.inRange' hX hw
    rw [if_pos rfl, ← hX, Valuation.pushAll_length, hX]
    exact hlift
  · rw [if_neg hne, Means, ← hX, pushAll_leave _ (hX ▸ hne)]

variable (hr : p.InRange) (hk : k < p.depth)
include hr hk

lemma stands_unfold : (unfold (fix body)).Stands tidy (p.withDepth k) :=
  h.replaceVars (moves_unfold hself h) (under_leave hr hk) (anyVar_false _ body)

lemma means_unfold (hv : v.height ≤ p.room) :
    (unfold (fix body)).Means ρ v ↔ (fix body).Means ρ v := by
  refine Iff.trans ?_ (means_fix_iff h hv).symm
  exact Stands.means_replaceVars (interprets_unfold hself h ρ) [] (under_leave hr hk) h
    (anyVar_false _ body) rfl hv

end Unfold

theorem Stands.hasComponent_of_anyVar : ∀ {c : Constraint} {p : Site} (ks : List Nat)
    {Δ : List Nat} {e : Nat}, c.Stands tidy p → p.scope = ks ++ e :: Δ → p.depth < e →
      c.anyVar (fun depth i => i == depth) ks.length → c.hasComponent
  | .field _ _, _, _, _, _, _, _, _, _ | .elements _, _, _, _, _, _, _, _, _
  | .elementAt _ _, _, _, _, _, _, _, _, _ => rfl
  | .conj cs, _, ks, _, _, h, hs, hd, hm => by
    by_contra hn
    rw [hasComponent, haveComponent_iff, not_exists] at hn
    refine absurd hm (Bool.not_eq_true _ ▸ anyVarList_eq_false.mpr fun c hc => ?_)
    exact Bool.eq_false_iff.mpr fun hm =>
      hn c ⟨hc, Stands.hasComponent_of_anyVar ks (allStand_iff.mp h.2 c hc) hs hd hm⟩
  | .fix body, p, ks, _, _, h, hs, hd, hm => by
    obtain ⟨k, hk, _, h⟩ := h
    rw [hasComponent]
    exact Stands.hasComponent_of_anyVar ((k + 1) :: ks) h (congrArg ((k + 1) :: ·) hs)
      (Nat.lt_trans hk hd) hm
  | .bvar i, p, ks, _, e, h, hs, hd, hm => by
    obtain ⟨k, hk, hi⟩ := h
    obtain rfl : i = ks.length := eq_of_beq hm
    rw [hs, List.getElem?_append_right (Nat.le_refl _), Nat.sub_self] at hi
    obtain rfl : e = k := Option.some.inj hi
    omega
  | .kind _, _, _, _, _, _, _, _, hm | .equals _, _, _, _, _, _, _, _, hm
  | .bound _ _, _, _, _, _, _, _, _, hm | .any, _, _, _, _, _, _, _, hm
  | .never, _, _, _, _, _, _, _, hm => by simp [anyVar] at hm
  | .length _, _, _, _, _, h, _, _, _ | .disj _, _, _, _, _, h, _, _, _
  | .neg _, _, _, _, _, h, _, _, _ | .ref _, _, _, _, _, h, _, _, _
  | .var _, _, _, _, _, h, _, _, _ => h.elim

lemma finishFix_stands (hr : p.InRange) (hk : k < p.depth) (h : body.Stands true (p.inside k)) :
    (finishFix body).Stands true p ∧ ∀ (ρ : Valuation) (v : Value), v.height ≤ p.room →
      ((finishFix body).Means ρ v ↔ (fix body).Means ρ v) := by
  simp only [finishFix]
  split_ifs with hn hm
  · refine ⟨trivial, fun ρ v hv => ⟨False.elim, fun hb => ?_⟩⟩
    rw [means_fix_iff h hv, eq_never_of_isNever hn] at hb
    exact hb
  · rw [Bool.not_eq_true'] at hm
    refine ⟨(h.drop hr hk hm).mono (.of_depth_le (p := p) (Nat.le_of_lt hk)), fun ρ v hv => ?_⟩
    exact (h.means_drop hr hk hm _ hv).trans (means_fix_iff h hv).symm
  · refine ⟨⟨k, hk, fun _ => ?_, h⟩, fun _ _ _ => Iff.rfl⟩
    exact Stands.hasComponent_of_anyVar [] h rfl (Nat.lt_succ_self k)
      (by simpa [mentionsSelf] using hm)

end Leave

end Constraint

end Stagewise
