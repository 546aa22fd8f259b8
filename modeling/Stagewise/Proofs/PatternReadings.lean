import Stagewise.Proofs.NestedInclusion
import Stagewise.Proofs.Patterns

/-! Three readings of a pattern: matching with it, matching with the pattern that staging leaves in
the residual program, and membership in the constraint that staging tests. All of them make the same
tests of types on the same parts of a value. Matching gives each test a budget of its own, membership
shares one budget among them. -/

set_option autoImplicit false

namespace Stagewise

open Association

namespace Constraint

/-! ### What a check spends -/

section Equations

variable (depth budget : Nat) (v : Value) (c : Constraint)

lemma check_length : check depth budget v (.length c) =
    match v with
    | .array items => check depth budget (Value.ofNat items.length) c
    | _ => (false, budget) := by
  cases depth <;> rfl

lemma check_neg : check depth budget v (.neg c) = opposite (check depth budget v c) := by
  cases depth <;> rfl

lemma check_disj (cs : List Constraint) : check depth budget v (.disj cs) =
    opposite (checkAll (fun b c => opposite (check depth b v c)) budget cs) := by
  cases depth <;> exact checkDisj_eq_checkAll _ budget v cs

end Equations

def Spends (n : Nat) (b : Bool) (run : Nat → Nat → Bool × Nat) : Prop :=
  ∀ depth budget, n ≤ budget → budget ≤ depth → run depth budget = (b, budget - n)

/-- The run spends no more than it has, and if some is left, then any budget that covers what it
has spent gives the same answer. -/
def Predicts (depth budget : Nat) (run : Nat → Nat → Bool × Nat) : Prop :=
  (run depth budget).2 ≤ budget ∧
    ((run depth budget).2 ≠ 0 → ∃ n ≤ budget, Spends n (run depth budget).1 run)

variable {depth budget : Nat} {run first second : Nat → Nat → Bool × Nat}

lemma Predicts.answer_eq {n : Nat} (h : Predicts (n + 1) (n + 1) run)
    (hne : (run (n + 1) (n + 1)).2 ≠ 0) : (run n n).1 = (run (n + 1) (n + 1)).1 := by
  obtain ⟨m, hm, hs⟩ := h.2 hne
  have hleft : (run (n + 1) (n + 1)).2 = n + 1 - m := by rw [hs _ _ hm (Nat.le_refl _)]
  rw [hs n n (by omega) (Nat.le_refl _)]

lemma predicts_const {b : Bool} (h : ∀ depth budget, run depth budget = (b, budget)) :
    Predicts depth budget run := by
  refine ⟨by simp [h], fun _ => ⟨0, Nat.zero_le _, fun depth budget _ _ => ?_⟩⟩
  simp [h]

lemma Predicts.andThen (hf : Predicts depth budget first)
    (hs : ∀ left ≤ budget, Predicts depth left second)
    (hrun : ∀ depth budget, run depth budget = if (first depth budget).1 then
      second depth (first depth budget).2 else (false, (first depth budget).2))
    (hle : budget ≤ depth) :
    Predicts depth budget run := by
  obtain ⟨hfle, hfspends⟩ := hf
  obtain ⟨hsle, hsspends⟩ := hs _ hfle
  rw [Predicts, hrun]
  split_ifs with hb
  · refine ⟨Nat.le_trans hsle hfle, fun hne => ?_⟩
    obtain ⟨m, hm, hfirst⟩ := hfspends (by omega)
    obtain ⟨n, hn, hsecond⟩ := hsspends hne
    have hleft : (first depth budget).2 = budget - m := by
      rw [hfirst depth budget hm hle]
    refine ⟨m + n, by omega, fun depth' budget' hmn hle' => ?_⟩
    rw [hrun, hfirst depth' budget' (by omega) hle', if_pos hb,
      hsecond depth' (budget' - m) (by omega) (by omega), Nat.sub_sub]
  · refine ⟨hfle, fun hne => ?_⟩
    obtain ⟨m, hm, hfirst⟩ := hfspends hne
    refine ⟨m, hm, fun depth' budget' hm' hle' => ?_⟩
    rw [hrun, hfirst depth' budget' hm' hle', if_neg hb]

lemma Spends.opposite {n : Nat} {b : Bool} (h : Spends n b run) :
    Spends n (!b) fun depth budget => opposite (run depth budget) :=
  fun depth budget hb hd => congrArg Constraint.opposite (h depth budget hb hd)

lemma Predicts.opposite (h : Predicts depth budget run) :
    Predicts depth budget fun depth budget => opposite (run depth budget) := by
  refine ⟨h.1, fun hne => ?_⟩
  obtain ⟨n, hn, hs⟩ := h.2 hne
  exact ⟨n, hn, hs.opposite⟩

lemma predicts_checkAll {α : Type} {f : Nat → Nat → α → Bool × Nat} {xs : List α}
    (hle : budget ≤ depth)
    (h : ∀ x ∈ xs, ∀ left ≤ budget, Predicts depth left fun d b => f d b x) :
    Predicts depth budget fun d b => checkAll (f d) b xs := by
  induction xs generalizing budget with
  | nil => exact predicts_const fun _ _ => rfl
  | cons x xs ih =>
    rw [List.forall_mem_cons] at h
    have hrest : ∀ left ≤ budget, Predicts depth left fun d b => checkAll (f d) b xs :=
      fun left hl => ih (by omega) fun y hy b hb => h.2 y hy b (by omega)
    exact (h.1 budget (Nat.le_refl _)).andThen hrest (fun d b => checkAll_cons (f d) b x xs) hle

def PredictsFix (depth : Nat) : Prop :=
  ∀ (body : Constraint) (budget : Nat) (v : Value), budget ≤ depth →
    Predicts depth budget fun d b => check d b v (.fix body)

theorem predicts_check_of_fix (hfix : PredictsFix depth) :
    ∀ (c : Constraint) (budget : Nat) (v : Value), budget ≤ depth →
      Predicts depth budget fun d b => check d b v c
  | .any, _, _, _ | .never, _, _, _ | .kind _, _, _, _ | .equals _, _, _, _ | .bvar _, _, _, _
  | .ref _, _, _, _ | .var _, _, _, _ =>
    predicts_const fun d _ => by cases d <;> rfl
  | .bound _ _, _, v, _ => by
    cases v <;> exact predicts_const fun d _ => by cases d <;> rfl
  | .field name c, budget, v, hb => by
    simp only [check_field]
    cases v with
    | object fields =>
      cases hf : find? name fields with
      | none => simpa only [hf] using predicts_const fun _ _ => rfl
      | some w => simpa only [hf] using predicts_check_of_fix hfix c budget w hb
    | _ => exact predicts_const fun _ _ => rfl
  | .elements c, budget, v, hb => by
    simp only [check_elements]
    cases v with
    | array items =>
      exact predicts_checkAll (f := fun d b w => check d b w c) hb fun w _ left hl =>
        predicts_check_of_fix hfix c left w (by omega)
    | _ => exact predicts_const fun _ _ => rfl
  | .length c, budget, v, hb => by
    simp only [check_length]
    cases v with
    | array items => exact predicts_check_of_fix hfix c budget _ hb
    | _ => exact predicts_const fun _ _ => rfl
  | .elementAt i c, budget, v, hb => by
    simp only [check_elementAt]
    cases v with
    | array items =>
      cases hi : items[i]? with
      | none => simpa only [hi] using predicts_const fun _ _ => rfl
      | some w => simpa only [hi] using predicts_check_of_fix hfix c budget w hb
    | _ => exact predicts_const fun _ _ => rfl
  | .conj cs, budget, v, hb => by
    simp only [check_conj]
    exact predicts_checkAll (f := (check · · v)) hb fun c _ left hl =>
      predicts_check_of_fix hfix c left v (by omega)
  | .disj cs, budget, v, hb => by
    simp only [check_disj]
    exact (predicts_checkAll (f := fun d b c => opposite (check d b v c)) hb fun c _ left hl =>
      (predicts_check_of_fix hfix c left v (by omega)).opposite).opposite
  | .neg c, budget, v, hb => by
    simp only [check_neg]
    exact (predicts_check_of_fix hfix c budget v hb).opposite
  | .fix body, budget, v, hb => hfix body budget v hb

lemma Predicts.fix {body : Constraint} {v : Value}
    (h : Predicts depth (budget - 1) fun d b => check d b v (unfold (.fix body))) :
    Predicts (depth + 1) budget fun d b => check d b v (.fix body) := by
  simp only [Predicts, check_fix] at h ⊢
  obtain ⟨hle, hspends⟩ := h
  split_ifs with h0
  · exact ⟨Nat.zero_le _, fun hne => absurd rfl hne⟩
  · refine ⟨by omega, fun hne => ?_⟩
    obtain ⟨n, hn, hs⟩ := hspends hne
    refine ⟨n + 1, by omega, fun depth' budget' hn' hle' => ?_⟩
    obtain ⟨depth', rfl⟩ := Nat.exists_eq_add_of_le' (show 1 ≤ depth' by omega)
    have hrun := hs depth' (budget' - 1) (by omega) (by omega)
    simp only [check_fix, if_neg (show budget' ≠ 0 by omega), hrun, Nat.sub_sub, Nat.add_comm]

theorem predicts_check (c : Constraint) (v : Value) (hb : budget ≤ depth) :
    Predicts depth budget fun d b => check d b v c := by
  induction depth generalizing budget v c with
  | zero =>
    refine predicts_check_of_fix (fun body budget v hb => ?_) c budget v hb
    obtain rfl := Nat.le_zero.mp hb
    exact ⟨Nat.le_refl 0, fun hne => absurd rfl hne⟩
  | succ depth ih =>
    refine predicts_check_of_fix (fun body budget v hb => ?_) c budget v hb
    exact (ih (unfold (.fix body)) v (by omega)).fix

def sufficesFor (n : Nat) (c : Constraint) (v : Value) : Bool := (check (n + 1) (n + 1) v c).2 != 0

def test (depth budget : Nat) (t : Value × Constraint) : Bool × Nat := check depth budget t.1 t.2

lemma checkAll_append {α : Type} (check : Nat → α → Bool × Nat) (budget : Nat) (xs ys : List α) :
    checkAll check budget (xs ++ ys) =
      if (checkAll check budget xs).1 then checkAll check (checkAll check budget xs).2 ys
      else (false, (checkAll check budget xs).2) := by
  induction xs generalizing budget with
  | nil => rfl
  | cons x xs ih =>
    rw [List.cons_append, checkAll_cons, checkAll_cons, ih]
    split_ifs <;> simp_all

lemma checkAll_test_eq_all {ts : List (Value × Constraint)} {depth' budget' : Nat}
    (hle : budget ≤ depth) (hleft : (checkAll (test depth) budget ts).2 ≠ 0)
    (hb : budget ≤ budget' + 1) (hle' : budget' ≤ depth') :
    (checkAll (test depth) budget ts).1 = ts.all fun t => (test depth' budget' t).1 := by
  induction ts generalizing budget with
  | nil => rfl
  | cons t ts ih =>
    have hfirst : (test depth budget t).2 ≤ budget := (predicts_check t.2 t.1 hle).1
    have hrest : (checkAll (test depth) (test depth budget t).2 ts).2 ≤ (test depth budget t).2 :=
      (predicts_checkAll (f := test) (Nat.le_trans hfirst hle) fun t _ left hl =>
        predicts_check t.2 t.1 (show left ≤ depth by omega)).1
    rw [checkAll_cons] at hleft ⊢
    have hne : (test depth budget t).2 ≠ 0 := by
      split_ifs at hleft
      · omega
      · exact hleft
    obtain ⟨m, hm, hs⟩ := (predicts_check t.2 t.1 hle).2 hne
    have hrun : (test depth budget t).2 = budget - m := congrArg Prod.snd (hs depth budget hm hle)
    have hrun' : test depth' budget' t = ((test depth budget t).1, budget' - m) :=
      hs depth' budget' (by omega) hle'
    rw [List.all_cons, hrun']
    split_ifs at hleft ⊢ with ht
    · rw [ih (by omega) hleft (by omega), ht, Bool.true_and]
    · rw [Bool.eq_false_iff.mpr ht, Bool.false_and]

end Constraint

namespace Term

def splicedType? : Term → Option Constraint
  | .mk (.value (.type c)) _ => some c
  | _ => none

lemma eq_of_splicedType? {ty : Term} {c : Constraint} (h : ty.splicedType? = some c) :
    ∃ span, ty = .mk (.value (.type c)) span := by
  unfold splicedType? at h
  split at h
  · next d span =>
    obtain rfl := Option.some.inj h
    exact ⟨span, rfl⟩
  · simp at h

end Term

namespace Pattern

open Constraint

/-! ### The tests of a pattern -/

mutual

def isConcrete : Pattern → Bool
  | .wildcard | .binding _ | .literal _ => true
  | .object fields => !fields.isEmpty && areConcreteFields fields
  | .array ps _ => areConcrete ps
  | .type ty inner => ty.splicedType?.isSome && inner.isConcrete
termination_by structural p => p

def areConcreteFields : List (String × Pattern) → Bool
  | [] => true
  | (_, p) :: fields => p.isConcrete && areConcreteFields fields
termination_by structural fields => fields

def areConcrete : List Pattern → Bool
  | [] => true
  | p :: ps => p.isConcrete && areConcrete ps
termination_by structural ps => ps

end

def bothTests? (first second : Option (List (Value × Constraint))) :
    Option (List (Value × Constraint)) :=
  match first, second with
  | some ts, some more => some (ts ++ more)
  | _, _ => none

mutual

def tests? : Pattern → Value → Option (List (Value × Constraint))
  | .wildcard, _ | .binding _, _ => some []
  | .literal l, v => if v == l.toValue then some [] else none
  | .object fields, .object entries => fieldTests? fields entries
  | .array ps rest, .array items =>
    if fits ps.length rest items.length then itemTests? ps items else none
  | .type ty inner, v => bothTests? (ty.splicedType?.map fun c => [(v, c)]) (inner.tests? v)
  | _, _ => none
termination_by structural p => p

def fieldTests? : List (String × Pattern) → List (String × Value) →
    Option (List (Value × Constraint))
  | [], _ => some []
  | (name, p) :: fields, entries =>
    bothTests? ((find? name entries).bind p.tests?) (fieldTests? fields entries)
termination_by structural fields => fields

def itemTests? : List Pattern → List Value → Option (List (Value × Constraint))
  | [], _ | _, [] => some []
  | p :: ps, v :: items => bothTests? (p.tests? v) (itemTests? ps items)
termination_by structural ps => ps

end

lemma areConcreteFields_iff {fields : List (String × Pattern)} :
    areConcreteFields fields ↔ ∀ q ∈ fields, q.2.isConcrete := by
  induction fields with
  | nil => simp [areConcreteFields]
  | cons q fields ih => simp [areConcreteFields, ih]

lemma areConcrete_iff {ps : List Pattern} : areConcrete ps ↔ ∀ p ∈ ps, p.isConcrete := by
  induction ps with
  | nil => simp [areConcrete]
  | cons p ps ih => simp [areConcrete, ih]

/-! ### Matching makes the tests -/

def allPass : Option (List (Value × Constraint)) → Bool
  | none => false
  | some ts => ts.all fun t => t.2.admits t.1

lemma bothTests?_nil (ts : Option (List (Value × Constraint))) : bothTests? ts (some []) = ts := by
  cases ts <;> simp [bothTests?]

lemma bothTests?_ite (b : Bool) (ts : Option (List (Value × Constraint))) :
    bothTests? (if b then some [] else none) ts = if b then ts else none := by
  cases b <;> cases ts <;> rfl

lemma allPass_bothTests? (first second : Option (List (Value × Constraint))) :
    allPass (bothTests? first second) = (allPass first && allPass second) := by
  cases first <;> cases second <;> simp [bothTests?, allPass]

def typeIn (s : Setting) (env : Environment) (ty : Term) : Outcome Constraint := do
  (← ty.eval s env).asType

lemma matchIn_eq_matchWith (s : Setting) (env : Environment) (p : Pattern) (v : Value) :
    p.matchIn s env v = p.matchWith (typeIn s env) v := by
  induction p using partInduction generalizing v with
  | wildcard | binding | literal => rfl
  | object fields ih =>
    cases v with
    | object entries =>
      rw [matchIn, matchWith]
      induction fields with
      | nil => rfl
      | cons q fields ihf =>
        obtain ⟨ihp, ih⟩ := List.forall_mem_cons.mp ih
        simp only [matchFieldsIn, ihp, ihf ih]
        rfl
    | _ => rfl
  | array ps rest ih =>
    cases v with
    | array items =>
      have hitems (items : List Value) :
          matchItemsIn s env ps items = matchItems (typeIn s env) ps items := by
        induction ps generalizing items with
        | nil => rw [matchItemsIn, matchItems]
        | cons p ps ihps =>
          obtain ⟨ihp, ih⟩ := List.forall_mem_cons.mp ih
          cases items with
          | nil => rfl
          | cons w items =>
            simp only [matchItemsIn, ihp, ihps ih]
            rfl
      rw [matchIn, hitems]
      rfl
    | _ => rfl
  | type ty inner ih =>
    simp only [matchIn, matchWith, ih, typeIn, bind_assoc]

section Match

variable {types : Term → Outcome Constraint}
  (htypes : ∀ c span, types (.mk (.value (.type c)) span) = .ok c)

include htypes in
lemma exists_matchWith {p : Pattern} (hp : p.isConcrete) (v : Value) :
    ∃ found, p.matchWith types v = .ok found ∧ found.isSome = allPass (p.tests? v) := by
  induction p using partInduction generalizing v with
  | wildcard => exact ⟨some [], rfl, rfl⟩
  | binding name => exact ⟨some [(name, v)], rfl, rfl⟩
  | literal l =>
    refine ⟨_, rfl, ?_⟩
    rw [tests?]
    split_ifs <;> rfl
  | object fields ih =>
    cases v with
    | object entries =>
      rw [isConcrete, Bool.and_eq_true, areConcreteFields_iff] at hp
      replace hp := hp.2
      rw [matchWith, tests?]
      induction fields with
      | nil => exact ⟨some [], rfl, rfl⟩
      | cons q fields ihf =>
        obtain ⟨name, p⟩ := q
        obtain ⟨hp, hfields⟩ := List.forall_mem_cons.mp hp
        obtain ⟨ihp, ih⟩ := List.forall_mem_cons.mp ih
        rw [matchFields, fieldTests?, allPass_bothTests?]
        cases find? name entries with
        | none => exact ⟨none, rfl, rfl⟩
        | some w =>
          obtain ⟨found, hfound, hsome⟩ := ihp hp w
          obtain ⟨more, hmore, hsome'⟩ := ihf ih hfields
          simp only [hfound, hmore, Option.bind_some, ← hsome, ← hsome']
          cases found <;> cases more <;> exact ⟨_, rfl, rfl⟩
    | _ => exact ⟨none, rfl, rfl⟩
  | array ps rest ih =>
    cases v with
    | array items =>
      rw [isConcrete, areConcrete_iff] at hp
      have hitems (items : List Value) : ∃ found, matchItems types ps items = .ok found ∧
          found.isSome = allPass (itemTests? ps items) := by
        induction ps generalizing items with
        | nil => exact ⟨some [], by rw [matchItems], by rw [itemTests?]; rfl⟩
        | cons p ps ihps =>
          obtain ⟨hp, hps⟩ := List.forall_mem_cons.mp hp
          obtain ⟨ihp, ih⟩ := List.forall_mem_cons.mp ih
          cases items with
          | nil => exact ⟨some [], rfl, rfl⟩
          | cons w items =>
            obtain ⟨found, hfound, hsome⟩ := ihp hp w
            obtain ⟨more, hmore, hsome'⟩ := ihps ih hps items
            rw [matchItems, itemTests?, allPass_bothTests?]
            simp only [hfound, hmore, ← hsome, ← hsome']
            cases found <;> cases more <;> exact ⟨_, rfl, rfl⟩
      obtain ⟨found, hfound, hsome⟩ := hitems items
      rw [matchWith, tests?, hfound]
      split_ifs
      · rw [← hsome]
        cases found <;> exact ⟨_, rfl, rfl⟩
      · exact ⟨none, rfl, rfl⟩
    | _ => exact ⟨none, rfl, rfl⟩
  | type ty inner ih =>
    rw [isConcrete, Bool.and_eq_true, Option.isSome_iff_exists] at hp
    obtain ⟨⟨c, hc⟩, hinner⟩ := hp
    obtain ⟨span, rfl⟩ := Term.eq_of_splicedType? hc
    obtain ⟨found, hfound, hsome⟩ := ih hinner v
    have hrun : matchWith types (.type (.mk (.value (.type c)) span) inner) v =
        if c.admits v then inner.matchWith types v else .ok none := by
      rw [matchWith, htypes]
      rfl
    rw [hrun, tests?, hc, allPass_bothTests?, ← hsome]
    split_ifs with hadmits
    · exact ⟨found, hfound, by simp [allPass, hadmits]⟩
    · exact ⟨none, rfl, by simp [allPass, hadmits]⟩

end Match

/-! ### Membership makes the tests -/

/-- The run makes the tests one after the other on one budget; for a value of another shape it
fails. -/
def Performs (depth : Nat) (run : Nat → Bool × Nat) : Option (List (Value × Constraint)) → Prop
  | none => ∀ budget, (run budget).1 = false
  | some ts => ∀ budget, run budget = checkAll (test depth) budget ts

section Performs

variable {depth : Nat} {run first second : Nat → Bool × Nat}
  {ts us : Option (List (Value × Constraint))}

lemma Performs.both (hf : Performs depth first ts) (hs : Performs depth second us)
    (hrun : ∀ budget, run budget =
      if (first budget).1 then second (first budget).2 else (false, (first budget).2)) :
    Performs depth run (bothTests? ts us) := by
  cases ts with
  | none =>
    intro budget
    rw [hrun, hf]
    rfl
  | some ts =>
    cases us with
    | none =>
      intro budget
      rw [hrun]
      split_ifs
      · exact hs _
      · rfl
    | some us =>
      intro budget
      rw [hrun, hf, checkAll_append]
      simp only [hs _]

lemma Performs.conj_cons {v : Value} {c : Constraint} {cs : List Constraint}
    (hc : Performs depth (fun budget => check depth budget v c) ts)
    (hcs : Performs depth (fun budget => check depth budget v (.conj cs)) us) :
    Performs depth (fun budget => check depth budget v (.conj (c :: cs))) (bothTests? ts us) :=
  hc.both hcs fun budget => check_conj_cons depth budget v c cs

lemma performs_conj_nil (depth : Nat) (v : Value) :
    Performs depth (fun budget => check depth budget v (.conj [])) (some []) :=
  fun budget => check_conj_nil depth budget v

lemma performs_singleton (depth : Nat) (v : Value) (c : Constraint) :
    Performs depth (fun budget => check depth budget v c) (some [(v, c)]) := by
  have hlast (r : Bool × Nat) :
      r = if r.1 then checkAll (test depth) r.2 [] else (false, r.2) := by
    rcases r with ⟨_ | _, left⟩ <;> rfl
  exact fun budget => (hlast _).trans (checkAll_cons (test depth) budget (v, c) []).symm

lemma performs_free {b : Bool} (h : ∀ budget, run budget = (b, budget)) :
    Performs depth run (if b then some [] else none) := by
  cases b with
  | true => exact h
  | false => exact fun budget => congrArg Prod.fst (h budget)

lemma check_lengthOf {count length : Nat} (rest : Option String) (depth budget : Nat)
    (hlt : length < Number.exactCount) :
    check depth budget (.ofNat length) (lengthOf count rest) =
      (fits count rest length, budget) := by
  cases rest with
  | none =>
    have hfits : (Value.ofNat length == Value.ofNat count) = fits count none length := by
      rw [Bool.eq_iff_iff]
      refine ⟨fun h => ?_, fun h => holds_lengthOf (X := fun _ => True) h hlt⟩
      simpa [fits] using (Number.eq_of_same_ofNat hlt h).symm
    cases depth <;> exact Prod.ext hfits rfl
  | some name =>
    have hfits : (Number.ofNat count).le (Number.ofNat length) = fits count (some name) length := by
      by_cases hle : count ≤ length
      · simp [fits, hle, Number.ofNat_le_ofNat hle (Nat.lt_of_le_of_lt hle hlt)]
      · simp [fits, hle, Number.not_ofNat_le_ofNat (Nat.lt_of_not_le hle) hlt]
    simp only [lengthOf, Option.isSome_some, if_true, check_conj_cons, check_conj_nil]
    have hkind : check depth budget (.ofNat length) (.kind .number) = (true, budget) := by
      cases depth <;> rfl
    have hbound : check depth budget (.ofNat length) (.bound .ge (Number.ofNat count)) =
        (fits count (some name) length, budget) := by
      cases depth <;> exact Prod.ext hfits rfl
    simp only [hkind, hbound, if_true]
    cases fits count (some name) length <;> rfl

end Performs

structure Lowers (p : Pattern) (c : Constraint) (q : Pattern) : Prop where
  concrete : q.isConcrete
  tests?_eq : ∀ v, q.tests? v = p.tests? v
  performs : ∀ (depth : Nat) {v : Value}, v.isShort →
    Performs depth (fun budget => check depth budget v c) (p.tests? v)

section Lowers

variable {p q : Pattern} {c : Constraint}

lemma lowers_any (hp : ∀ v, p.tests? v = some []) : Lowers p .any .wildcard where
  concrete := rfl
  tests?_eq v := (hp v).symm
  performs depth v _ := by
    rw [hp]
    exact fun budget => by cases depth <;> rfl

lemma lowers_literal (l : Literal) : Lowers (.literal l) (.equals l.toValue) (.literal l) where
  concrete := rfl
  tests?_eq _ := rfl
  performs depth v _ := by
    rw [tests?]
    exact performs_free fun budget => by cases depth <;> rfl

lemma Lowers.type (h : Lowers p c q) {ty : Term} {d : Constraint} (hd : ty.splicedType? = some d) :
    Lowers (.type ty p) (.conj [d, c]) (.type (.type d) q) where
  concrete := by
    rw [isConcrete, h.concrete]
    rfl
  tests?_eq v := by
    rw [tests?, tests?, h.tests?_eq, hd]
    rfl
  performs depth v hv := by
    rw [tests?, hd, ← bothTests?_nil (p.tests? v)]
    exact (performs_singleton depth v d).conj_cons
      ((h.performs depth hv).conj_cons (performs_conj_nil depth v))

def LowersFields (fields : List (String × Pattern))
    (lowered : List (String × Constraint × Pattern)) : Prop :=
  List.Forall₂ (fun q r => q.1 = r.1 ∧ Lowers q.2 r.2.1 r.2.2) fields lowered

lemma LowersFields.performs {fields : List (String × Pattern)}
    {lowered : List (String × Constraint × Pattern)} (h : LowersFields fields lowered) (depth : Nat)
    {entries : List (String × Value)} (hv : (Value.object entries).isShort) :
    Performs depth (fun budget => check depth budget (.object entries)
      (.conj (lowered.map fun r => .field r.1 r.2.1))) (fieldTests? fields entries) := by
  induction h with
  | nil => exact performs_conj_nil depth _
  | @cons q r fields lowered hq _ ih =>
    obtain ⟨name, p⟩ := q
    obtain ⟨name, c, p'⟩ := r
    obtain ⟨rfl, hp⟩ := hq
    rw [fieldTests?, List.map_cons]
    refine Performs.conj_cons ?_ ih
    simp only [check_field]
    cases hf : find? name entries with
    | none => exact fun budget => rfl
    | some w =>
      exact hp.performs depth (Value.areShortFields_iff.mp (by simpa only [Value.isShort] using hv) _
        (mem_of_find?_eq_some hf))

lemma LowersFields.concrete {fields : List (String × Pattern)}
    {lowered : List (String × Constraint × Pattern)} (h : LowersFields fields lowered) :
    areConcreteFields (lowered.map fun r => (r.1, r.2.2)) := by
  induction h with
  | nil => rfl
  | cons hq _ ih => simp [areConcreteFields, hq.2.concrete, ih]

lemma LowersFields.tests?_eq {fields : List (String × Pattern)}
    {lowered : List (String × Constraint × Pattern)} (h : LowersFields fields lowered)
    (entries : List (String × Value)) :
    fieldTests? (lowered.map fun r => (r.1, r.2.2)) entries = fieldTests? fields entries := by
  induction h with
  | nil => rfl
  | cons hq _ ih =>
    rw [List.map_cons, fieldTests?, fieldTests?, ih, hq.1, funext hq.2.tests?_eq]

lemma LowersFields.object {fields : List (String × Pattern)}
    {lowered : List (String × Constraint × Pattern)} (h : LowersFields fields lowered)
    (hne : fields ≠ []) :
    Lowers (.object fields) (.record (lowered.map fun r => (r.1, r.2.1)))
      (.object (lowered.map fun r => (r.1, r.2.2))) where
  concrete := by
    rw [isConcrete, h.concrete, Bool.and_true]
    cases h with
    | nil => exact absurd rfl hne
    | cons => rfl
  tests?_eq v := by
    cases v with
    | object entries => exact h.tests?_eq entries
    | _ => rfl
  performs depth v hv := by
    have hkind (budget : Nat) :
        check depth budget v (.kind .object) = (v.kind.refines .object, budget) := by
      cases depth <;> rfl
    rw [record, List.map_map]
    cases v with
    | object entries =>
      have hall := (performs_free hkind).conj_cons (h.performs depth hv)
      rwa [bothTests?_ite] at hall
    | _ =>
      -- a field is named, so arrays and functions fail although they pass for objects
      cases h with
      | nil => exact absurd rfl hne
      | cons =>
        intro budget
        simp [check_conj_cons, check_field]

def LowersItems (ps : List Pattern) (lowered : List (Constraint × Pattern)) : Prop :=
  List.Forall₂ (fun p r => Lowers p r.1 r.2) ps lowered

lemma LowersItems.performs {ps : List Pattern} {lowered : List (Constraint × Pattern)}
    (h : LowersItems ps lowered) (depth start : Nat) {items : List Value}
    (hv : (Value.array items).isShort) (hle : ps.length ≤ (items.drop start).length) :
    Performs depth (fun budget => check depth budget (.array items)
      (.conj (elementsFrom start (lowered.map Prod.fst)))) (itemTests? ps (items.drop start)) := by
  induction h generalizing start with
  | nil =>
    rw [itemTests?]
    exact performs_conj_nil depth _
  | @cons p r ps lowered hp _ ih =>
    have hlt : start < items.length := by simp at hle; omega
    rw [List.drop_eq_getElem_cons hlt, itemTests?, List.map_cons, elementsFrom]
    refine Performs.conj_cons ?_ (ih (start + 1) (by simp at hle ⊢; omega))
    simp only [check_elementAt, List.getElem?_eq_getElem hlt]
    simp only [Value.isShort, Bool.and_eq_true] at hv
    exact hp.performs depth (Value.areShort_iff.mp hv.2 _ (List.getElem_mem hlt))

lemma LowersItems.concrete {ps : List Pattern} {lowered : List (Constraint × Pattern)}
    (h : LowersItems ps lowered) : areConcrete (lowered.map Prod.snd) := by
  induction h with
  | nil => rfl
  | cons hp _ ih => simp [areConcrete, hp.concrete, ih]

lemma LowersItems.tests?_eq {ps : List Pattern} {lowered : List (Constraint × Pattern)}
    (h : LowersItems ps lowered) (items : List Value) :
    itemTests? (lowered.map Prod.snd) items = itemTests? ps items := by
  induction h generalizing items with
  | nil => rfl
  | cons hp _ ih =>
    cases items with
    | nil => rfl
    | cons v items => rw [List.map_cons, itemTests?, itemTests?, ih, hp.tests?_eq]

lemma LowersItems.array {ps : List Pattern} {lowered : List (Constraint × Pattern)}
    (h : LowersItems ps lowered) (rest : Option String) :
    Lowers (.array ps rest) (.conj (.kind .array :: .length (lengthOf ps.length rest) ::
        elementsFrom 0 (lowered.map Prod.fst)))
      (.array (lowered.map Prod.snd) (rest.map fun _ => blankName)) where
  concrete := h.concrete
  tests?_eq v := by
    cases v with
    | array items =>
      have hfits : fits (lowered.map Prod.snd).length (rest.map fun _ => blankName) items.length =
          fits ps.length rest items.length := by
        rw [List.length_map, ← h.length_eq, fits, fits, Option.isSome_map]
      rw [tests?, tests?, hfits, h.tests?_eq]
    | _ => rfl
  performs depth v hv := by
    cases v with
    | array items =>
      have hlt : items.length < Number.exactCount := by
        simp only [Value.isShort, Bool.and_eq_true, decide_eq_true_eq] at hv
        exact hv.1
      have hkind (budget : Nat) :
          check depth budget (.array items) (.kind .array) = (true, budget) := by
        cases depth <;> rfl
      have hlength (budget : Nat) : check depth budget (.array items)
          (.length (lengthOf ps.length rest)) = (fits ps.length rest items.length, budget) := by
        rw [check_length]
        exact check_lengthOf rest depth budget hlt
      rw [tests?]
      by_cases hfits : fits ps.length rest items.length
      · have hall := (performs_free hkind).conj_cons ((performs_free hlength).conj_cons
          (h.performs depth 0 hv (by simpa using length_le_of_fits hfits)))
        rwa [bothTests?_ite, bothTests?_ite] at hall
      · rw [if_neg hfits]
        intro budget
        simp [check_conj_cons, hkind, hlength, hfits]
    | _ =>
      intro budget
      cases depth <;> rfl

end Lowers

/-! ### The readings agree -/

lemma exists_lowers (ctx : Context) (scope : Scope) {p : Pattern} (hp : p.isConcrete) :
    ∃ c q, p.lower ctx scope = pure (c, q) ∧ Lowers p c q := by
  induction p using partInduction with
  | wildcard | binding name => exact ⟨.any, .wildcard, rfl, lowers_any fun _ => rfl⟩
  | literal l => exact ⟨_, _, rfl, lowers_literal l⟩
  | object fields ih =>
    rw [isConcrete, Bool.and_eq_true, areConcreteFields_iff] at hp
    have hfields : ∃ lowered, lowerFields ctx scope fields = pure lowered ∧
        LowersFields fields lowered := by
      replace hp := hp.2
      induction fields with
      | nil => exact ⟨[], rfl, .nil⟩
      | cons q fields ihf =>
        obtain ⟨name, p⟩ := q
        obtain ⟨hp, hfields⟩ := List.forall_mem_cons.mp hp
        obtain ⟨ihp, ih⟩ := List.forall_mem_cons.mp ih
        obtain ⟨c, p', hlower, hl⟩ := ihp hp
        obtain ⟨lowered, hlowered, hls⟩ := ihf ih hfields
        refine ⟨(name, c, p') :: lowered, ?_, .cons ⟨rfl, hl⟩ hls⟩
        rw [lowerFields, hlower, hlowered]
        rfl
    obtain ⟨lowered, hlowered, h⟩ := hfields
    refine ⟨_, _, ?_, h.object (by simpa using hp.1)⟩
    rw [lower, hlowered]
    rfl
  | array ps rest ih =>
    rw [isConcrete, areConcrete_iff] at hp
    have hitems : ∃ lowered, lowerItems ctx scope ps = pure lowered ∧ LowersItems ps lowered := by
      induction ps with
      | nil => exact ⟨[], rfl, .nil⟩
      | cons p ps ihps =>
        obtain ⟨hp, hps⟩ := List.forall_mem_cons.mp hp
        obtain ⟨ihp, ih⟩ := List.forall_mem_cons.mp ih
        obtain ⟨c, p', hlower, hl⟩ := ihp hp
        obtain ⟨lowered, hlowered, hls⟩ := ihps ih hps
        refine ⟨(c, p') :: lowered, ?_, .cons hl hls⟩
        rw [lowerItems, hlower, hlowered]
        rfl
    obtain ⟨lowered, hlowered, h⟩ := hitems
    refine ⟨_, _, ?_, h.array rest⟩
    rw [lower, hlowered]
    rfl
  | type ty inner ih =>
    rw [isConcrete, Bool.and_eq_true, Option.isSome_iff_exists] at hp
    obtain ⟨⟨d, hd⟩, hinner⟩ := hp
    obtain ⟨c, q, hlower, hl⟩ := ih hinner
    refine ⟨_, _, ?_, hl.type hd⟩
    obtain ⟨span, rfl⟩ := Term.eq_of_splicedType? hd
    rw [lower, hlower]
    rfl

lemma Performs.admits_eq {c : Constraint} {v : Value} {ts : Option (List (Value × Constraint))}
    (h : ∀ depth, Performs depth (fun budget => check depth budget v c) ts)
    (hbudget : (∀ us, ts = some us → us.length ≤ 1) ∨ c.sufficesFor maxUnrolls v) :
    c.admits v = allPass ts := by
  cases ts with
  | none => exact h maxUnrolls maxUnrolls
  | some ts =>
    have hrun (n : Nat) : check n n v c = checkAll (test n) n ts := h n n
    rw [admits, hrun, allPass]
    rcases hbudget with hone | hsuffices
    · have hlength := hone ts rfl
      cases ts with
      | nil => rfl
      | cons t ts =>
        obtain rfl : ts = [] := by simpa using hlength
        rw [← performs_singleton maxUnrolls t.1 t.2 maxUnrolls]
        simp [admits]
    · rw [sufficesFor, hrun, bne_iff_ne] at hsuffices
      have hpredicts : Predicts (maxUnrolls + 1) (maxUnrolls + 1) fun d b => checkAll (test d) b ts :=
        predicts_checkAll (Nat.le_refl _) fun t _ left hl => predicts_check t.2 t.1 hl
      rw [hpredicts.answer_eq hsuffices]
      exact checkAll_test_eq_all (Nat.le_refl _) hsuffices (Nat.le_refl _) (Nat.le_refl _)

/-- Lowering a pattern keeps what it matches: a value matches the pattern if and only if it matches
the pattern of the residual program. It satisfies the constraint that staging tests if and only if
it matches, unless the tests of several types need more unrollings together than one check may
spend. -/
theorem readings_agree (ctx : Context) (scope : Scope) (types : Term → Outcome Constraint)
    (htypes : ∀ c span, types (.mk (.value (.type c)) span) = .ok c) {p : Pattern}
    (hp : p.isConcrete) :
    ∃ tested lowered, p.lower ctx scope = pure (tested, lowered) ∧
      ∀ v : Value, v.isShort → ∃ found again, p.matchWith types v = .ok found ∧
        lowered.matchWith types v = .ok again ∧ found.isSome = again.isSome ∧
        ((∀ ts, p.tests? v = some ts → ts.length ≤ 1) ∨ tested.sufficesFor maxUnrolls v →
          tested.admits v = found.isSome) := by
  obtain ⟨tested, lowered, hlower, h⟩ := exists_lowers ctx scope hp
  refine ⟨tested, lowered, hlower, fun v hv => ?_⟩
  obtain ⟨found, hfound, hsome⟩ := exists_matchWith htypes hp v
  obtain ⟨again, hagain, hsome'⟩ := exists_matchWith htypes h.concrete v
  refine ⟨found, again, hfound, hagain, by rw [hsome, hsome', h.tests?_eq], fun hbudget => ?_⟩
  rw [hsome]
  exact Performs.admits_eq (fun depth => h.performs depth hv) hbudget

theorem readings_agree_lists :
    let list : Constraint := .fix (.disj [.kind .null, .field "next" (.bvar 0)])
    let p : Pattern := .object [("name", .literal (.string "a")),
      ("items", .array [.type (.type list) (.binding "x"), .type (.type list) .wildcard] (some "xs"))]
    let one : Value := .object [("next", .null)]
    let v : Value := .object [("name", .string "a"), ("items", .array [.null, one, one])]
    let s : Setting := .ofLimit [] 1
    ∃ tested lowered, p.lower (.ofOptions {} []) .empty = pure (tested, lowered) ∧
      ∃ found again, p.matchIn s [] v = .ok found ∧ lowered.matchIn s [] v = .ok again ∧
        found.isSome = again.isSome ∧ tested.admits v = found.isSome ∧ tested.admits v := by
  intro list p one v s
  obtain ⟨tested, lowered, hlower, h⟩ :=
    readings_agree (.ofOptions {} []) .empty (typeIn s []) (fun _ _ => rfl) (p := p) rfl
  have htested : tested = .record [("name", .equals (.string "a")), ("items", .conj [.kind .array,
      .length (lengthOf 2 (some "xs")), .elementAt 0 (.conj [list, .any]),
      .elementAt 1 (.conj [list, .any])])] :=
    congrArg Prod.fst (EStateM.Result.ok.inj (congrFun hlower.symm ({} : Session))).1
  obtain ⟨found, again, hfound, hagain, hsame, hadmits⟩ := h v rfl
  refine ⟨tested, lowered, hlower, found, again, ?_, ?_, hsame, hadmits (.inr ?_), ?_⟩
  · rwa [matchIn_eq_matchWith]
  · rwa [matchIn_eq_matchWith]
  · subst htested
    decide +kernel
  · subst htested
    decide +kernel

/-- The tests of two types together need more unrollings than one check may spend: the value matches
the pattern, and membership in the constraint that staging tests fails. -/
theorem readings_differ :
    let tree : Constraint :=
      .fix (.disj [.kind .null, .conj [.elements (.bvar 0), .elements (.bvar 0)]])
    let p : Pattern := .array [.type (.type tree) .wildcard, .type (.type tree) .wildcard] none
    let v : Value := .array [Nat.repeat (fun w => .array [w]) 11 .null, .array [.null]]
    p.isConcrete ∧ v.isShort ∧ p.matchIn (.ofLimit [] 1) [] v = .ok (some []) ∧
      ∃ tested lowered, p.lower (.ofOptions {} []) .empty = pure (tested, lowered) ∧
        tested.admits v = false := by
  intro tree p v
  -- the first item leaves one unrolling, and the second one needs three
  have hdeep : check maxUnrolls maxUnrolls (Nat.repeat (fun w => .array [w]) 11 .null) tree =
      (true, 1) := by
    decide +kernel
  have hflat : tree.admits (.array [.null]) := by decide +kernel
  have hleft : check maxUnrolls 1 (.array [.null]) tree = (false, 0) := by decide +kernel
  have hshort : v.isShort := by decide
  obtain ⟨tested, lowered, hlower, h⟩ := exists_lowers (.ofOptions {} []) .empty (p := p) rfl
  refine ⟨rfl, hshort, ?_, tested, lowered, hlower, ?_⟩
  · have hitem (w : Value) : matchIn (.ofLimit [] 1) [] (.type (.type tree) .wildcard) w =
        if tree.admits w then .ok (some []) else .ok none := rfl
    have hdeep' : tree.admits (Nat.repeat (fun w => .array [w]) 11 .null) := by rw [admits, hdeep]
    rw [matchIn, if_pos (by rfl), matchItemsIn, matchItemsIn, hitem, hitem, if_pos hdeep',
      if_pos hflat]
    rfl
  · have hrun : check maxUnrolls maxUnrolls v tested = checkAll (test maxUnrolls) maxUnrolls
        [(Nat.repeat (fun w => .array [w]) 11 .null, tree), (.array [.null], tree)] :=
      h.performs maxUnrolls hshort maxUnrolls
    rw [admits, hrun, checkAll_cons, test, hdeep, if_pos rfl, checkAll_cons, test, hleft]
    rfl

end Pattern

end Stagewise
