import Stagewise.Builtin.Evaluation
import Stagewise.Proofs.Data
import Stagewise.Proofs.Projections

/-! What the signature of a builtin function says about its result is true of the result. The
variables of a signature are solved by what is known about the items of the arguments, widened
where several arguments share one. -/

set_option autoImplicit false

namespace Stagewise

namespace Number

lemma isNegative_abs (x : Number) : x.abs.isNegative = false := by
  have hlt : x.magnitude < 0x8000000000000000 := Nat.mod_lt _ (by decide)
  simp only [isNegative, abs, ofMagnitude, decide_eq_false_iff_not, UInt64.le_iff_toNat_le,
    Bool.false_eq_true, if_false, Nat.zero_add, UInt64.toNat_ofNat', Nat.not_le]
  exact Nat.lt_of_le_of_lt (Nat.mod_le _ _) hlt

lemma zero_le_abs (x : Number) : zero.le x.abs ↔ x.abs.isNaN = false := by
  have hplace : zero.place ≤ x.abs.place := by
    simp only [place, isNegative_abs, Bool.false_eq_true, if_false]
    exact Int.natCast_nonneg _
  have hzero : zero.isNaN = false := by decide
  simp [le, hzero, hplace]

end Number

namespace Constraint

/-! ### Arrays of items -/

lemma simplify_arrayOf (c : Constraint) :
    ∃ n, c.size < n ∧ (arrayOf c).simplify = arrayOf (c.normalize n) := by
  have hle := four_mul_lt_allowance (arrayOf c).size
  have hsize : (arrayOf c).size = c.size + 3 := by
    simp [arrayOf, size, sizeList]
    omega
  obtain ⟨n, hn⟩ : ∃ n, allowance (arrayOf c).size = n + 3 :=
    ⟨_, (Nat.sub_add_cancel (by omega)).symm⟩
  refine ⟨n + 1, by omega, ?_⟩
  rw [simplify, hn]
  rfl

lemma admits_simplify_arrayOf {c : Constraint} {items : List Value} {m : Nat} (hm : m ≤ 2)
    (hc : ∀ {w}, Fragment.conjunctive.Covers w → IsUnion .conjunctive false m w c)
    (hitems : ∀ w ∈ items, Fragment.conjunctive.Covers w ∧ c.admits w) :
    (arrayOf c).simplify.admits (.array items) := by
  obtain ⟨n, hn, he⟩ := simplify_arrayOf c
  have hnormal {w : Value} (hw : Fragment.conjunctive.Covers w) :=
    (hc hw).normalize Fragment.isFlat_conjunctive hm hw hn
  have hfree : (c.normalize n).isFixFree :=
    isFixFree_of_branches (hnormal (w := .null) ⟨rfl, fun _ => rfl⟩).1.fits
  rw [he, admits_iff_holds (by simp [arrayOf, isFixFree, areFixFree, hfree]) fun _ => True]
  have hall : ∀ w ∈ items, (c.normalize n).Holds (fun _ => True) w := by
    intro w hw
    obtain ⟨hcovers, hadmits⟩ := hitems w hw
    exact (admits_iff_holds hfree _).mp ((hnormal hcovers).2.mpr hadmits)
  refine holds_conj.mpr (List.forall_mem_cons.mpr ⟨rfl, List.forall_mem_singleton.mpr ?_⟩)
  exact ⟨items, rfl, hall⟩

lemma admits_instantiate_arrayOf {s : Solution} {c : Constraint} {items : List Value}
    (hclosed : s.substitute c = c) (hc : c.Fits .conjunctive false .plain)
    (hitems : ∀ w ∈ items, Fragment.conjunctive.Covers w ∧ c.Holds (fun _ => True) w) :
    (s.instantiate (arrayOf c)).admits (.array items) := by
  have he : s.instantiate (arrayOf c) = (arrayOf c).simplify := by
    simp only [Solution.instantiate, arrayOf, Solution.substitute, Solution.substituteList, hclosed]
  rw [he]
  refine admits_simplify_arrayOf (m := 1) (by omega)
    (fun _ => isUnion_of_fits Fragment.isFlat_conjunctive hc) fun w hw => ?_
  exact ⟨(hitems w hw).1, (hc.admits_iff _).mpr (hitems w hw).2⟩

end Constraint

namespace Builtin

open Constraint

structure IsArgument (c : Constraint) (v : Value) : Prop where
  core : c.isCore
  wellFormed : v.isWellFormed
  short : v.isShort
  admits : c.admits v

lemma IsArgument.covers {c : Constraint} {v : Value} (h : IsArgument c v) :
    Fragment.conjunctive.Covers v := ⟨h.wellFormed, fun _ => h.short⟩

section Arguments

variable {cs : List Constraint} {vs : List Value} (hargs : List.Forall₂ IsArgument cs vs)

include hargs

lemma isArgument_of_arg {i : Nat} {v : Value} (h : arg vs i = .ok v) :
    ∃ c, cs[i]? = some c ∧ IsArgument c v := by
  have hv : vs[i]? = some v := by
    unfold arg at h
    split at h
    · exact Except.ok.inj h ▸ ‹_›
    · cases h
  clear h
  induction hargs generalizing i with
  | nil => cases hv
  | cons hc _ ih =>
    cases i with
    | zero => exact Option.some.inj hv ▸ ⟨_, rfl, hc⟩
    | succ i => exact ih hv

lemma isArgument_of_arrayArg {i : Nat} {items : List Value} (h : arrayArg vs i = .ok items) :
    ∃ c, cs[i]? = some c ∧ IsArgument c (.array items) := by
  obtain ⟨v, hv, h⟩ := Outcome.bind_eq_ok.mp h
  split at h
  · exact Except.ok.inj h ▸ isArgument_of_arg hargs hv
  · cases h

lemma isArgument_of_objectArg {i : Nat} {fields : List (String × Value)}
    (h : objectArg vs i = .ok fields) : ∃ c, cs[i]? = some c ∧ IsArgument c (.object fields) := by
  obtain ⟨v, hv, h⟩ := Outcome.bind_eq_ok.mp h
  split at h
  · exact Except.ok.inj h ▸ isArgument_of_arg hargs hv
  · cases h

end Arguments

/-! ### Items of arguments -/

section Items

variable {c d : Constraint} {v w : Value} {items others : List Value}

lemma IsArgument.isUnion (h : IsArgument c v) : IsUnion .conjunctive false 1 w c :=
  isUnion_of_fits Fragment.isFlat_conjunctive (fits_of_isCore h.core).conjunctive

lemma IsArgument.isUnion_itemOf (h : IsArgument c (.array items))
    (hw : Fragment.conjunctive.Covers w) : IsUnion .conjunctive false 1 w c.itemOf ∧
      (w ∈ items → c.itemOf.admits w) := by
  obtain ⟨hunion, hadmits⟩ := Constraint.isUnion_itemOf h.core h.covers h.admits hw
  exact ⟨hunion.of_tidy, hadmits⟩

lemma IsArgument.isUnion_simplify_itemOf (h : IsArgument c (.array items))
    (hw : Fragment.conjunctive.Covers w) : IsUnion .conjunctive false 1 w c.itemOf.simplify ∧
      (w ∈ items → c.itemOf.simplify.admits w) := by
  obtain ⟨hunion, hadmits⟩ := h.isUnion_itemOf hw
  obtain ⟨hunion, hiff⟩ := hunion.simplify Fragment.isFlat_conjunctive (by omega) hw
  exact ⟨hunion.of_tidy, fun hmem => hiff.mpr (hadmits hmem)⟩

lemma IsArgument.admits_arrayOf_union (h : IsArgument c (.array items))
    (hd : ∀ {w}, Fragment.conjunctive.Covers w → IsUnion .conjunctive false 1 w d)
    (hothers : ∀ w ∈ others, Fragment.conjunctive.Covers w ∧ d.admits w) :
    (arrayOf (union c.itemOf.simplify d)).simplify.admits (.array (items ++ others)) := by
  have hunion {w : Value} (hw : Fragment.conjunctive.Covers w) :=
    (h.isUnion_simplify_itemOf hw).1.union Fragment.isFlat_conjunctive (hd hw) (Nat.le_refl 2) hw
  refine admits_simplify_arrayOf (Nat.le_refl 2) (fun hw => (hunion hw).1.of_tidy) fun w hw => ?_
  rcases List.mem_append.mp hw with hw | hw
  · have hcovers := h.covers.mem hw
    exact ⟨hcovers, (hunion hcovers).2.mpr (.inl ((h.isUnion_simplify_itemOf hcovers).2 hw))⟩
  · obtain ⟨hcovers, hadmits⟩ := hothers w hw
    exact ⟨hcovers, (hunion hcovers).2.mpr (.inr hadmits)⟩

lemma IsArgument.admits_arrayOf_sublist (h : IsArgument c (.array items))
    (hothers : ∀ w ∈ others, w ∈ items) :
    (arrayOf c.itemOf.simplify).simplify.admits (.array others) := by
  refine admits_simplify_arrayOf (m := 1) (by omega)
    (fun hw => (h.isUnion_simplify_itemOf hw).1) fun w hw => ?_
  have hcovers := h.covers.mem (hothers w hw)
  exact ⟨hcovers, (h.isUnion_simplify_itemOf hcovers).2 (hothers w hw)⟩

end Items

/-! ### Signatures -/

section Signatures

variable {c d k : Constraint} {s : Solution} {cs : List Constraint}

lemma exists_of_getElem? (hc : cs[0]? = some c) (hd : cs[1]? = some d) :
    ∃ rest, cs = c :: d :: rest := by
  rcases cs with _ | ⟨_, _ | _⟩ <;> simp_all

lemma bind_someArray : s.bind c someArray = s.bind c.itemOf (.var 0) := by
  simp only [someArray, arrayOf, Solution.bind, Solution.bindList]

lemma bind_var_nil : Solution.bind [] c (.var 0) = [(0, c.simplify)] := by
  simp [Solution.bind, Solution.get?, Solution.insert]

lemma bind_var_known : Solution.bind [(0, k)] c (.var 0) = [(0, k.union c)] := by
  simp [Solution.bind, Solution.get?, Solution.insert]

lemma instantiate_someArray :
    Solution.instantiate [(0, k)] someArray = (arrayOf k).simplify := by
  simp [Solution.instantiate, someArray, arrayOf, Solution.substitute, Solution.substituteList,
    Solution.get?]

lemma result_guard {k : Kind} (hc : cs[0]? = some c) : (guard k).result cs = guardResult k c := by
  obtain ⟨cs, rfl⟩ := List.head?_eq_some_iff.mp (List.head?_eq_getElem? ▸ hc)
  rfl

lemma result_length (hc : cs[0]? = some c) : length.result cs = c.lengthOf := by
  obtain ⟨cs, rfl⟩ := List.head?_eq_some_iff.mp (List.head?_eq_getElem? ▸ hc)
  rfl

lemma result_concat (hc : cs[0]? = some c) (hd : cs[1]? = some d) :
    concat.result cs = (arrayOf (union c.itemOf.simplify d.itemOf)).simplify := by
  obtain ⟨cs, rfl⟩ := exists_of_getElem? hc hd
  change Solution.instantiate ((Solution.bind [] c someArray).bind d someArray) someArray = _
  rw [bind_someArray, bind_someArray, bind_var_nil, bind_var_known, instantiate_someArray]

lemma result_append (hc : cs[0]? = some c) (hd : cs[1]? = some d) :
    append.result cs = (arrayOf (union c.itemOf.simplify d)).simplify := by
  obtain ⟨cs, rfl⟩ := exists_of_getElem? hc hd
  change Solution.instantiate ((Solution.bind [] c someArray).bind d (.var 0)) someArray = _
  rw [bind_someArray, bind_var_nil, bind_var_known, instantiate_someArray]

lemma result_slice (hc : cs[0]? = some c) :
    slice.result cs = (arrayOf c.itemOf.simplify).simplify := by
  have hsolve : slice.solve cs = Solution.bind [] c someArray := by
    obtain ⟨cs, rfl⟩ := List.head?_eq_some_iff.mp (List.head?_eq_getElem? ▸ hc)
    rcases cs with _ | ⟨_, _ | _⟩ <;> rfl
  change (slice.solve cs).instantiate someArray = _
  rw [hsolve, bind_someArray, bind_var_nil, instantiate_someArray]

end Signatures

/-! ### Results -/

section Results

variable {c : Constraint} {v : Value} {k : Kind} {s : Solution}

lemma admits_instantiate_kind (h : v.kind.refines k) : (s.instantiate (.kind k)).admits v := by
  have hpos := four_mul_lt_allowance (Constraint.kind k).size
  obtain ⟨n, hn⟩ : ∃ n, allowance (Constraint.kind k).size = n + 1 :=
    ⟨_, (Nat.sub_add_cancel (by omega)).symm⟩
  rw [Solution.instantiate, Solution.substitute, simplify, hn]
  · exact (admits_iff_holds rfl fun _ => True).mpr h
  all_goals simp

lemma admits_instantiate_nonNegative {x : Number} :
    (s.instantiate nonNegative).admits (.number x.abs) ↔ x.abs.isNaN = false := by
  have hclosed : s.substitute nonNegative = nonNegative := rfl
  rw [Solution.instantiate, hclosed, admits_simplify_of_isCore rfl rfl, ← Number.zero_le_abs,
    nonNegative, holds_conj]
  simp [Holds, Comparison.holds, Value.kind, Kind.refines]

lemma admits_guardResult (h : IsArgument c v) :
    (guardResult k c).admits (.bool (v.kind.refines k)) := by
  have hv := (admits_iff_holds (fits_of_isCore h.core).isFixFree fun _ => True).mp h.admits
  have hk : (Constraint.kind k).isCore := rfl
  unfold guardResult
  split_ifs with himplies hdisjoint
  · have hholds : v.kind.refines k := implies_sound h.core hk himplies h.wellFormed hv
    rw [hholds]
    rfl
  · have hholds : ¬ v.kind.refines k := fun hk' =>
      disjoint_sound h.core hk hdisjoint h.wellFormed ⟨hv, hk'⟩
    rw [Bool.not_eq_true _ |>.mp hholds]
    rfl
  · rfl

lemma fits_entry : (tuple [.kind .string, .any]).Fits .conjunctive false .plain := by
  refine fits_conj.mpr ⟨by simp, ?_⟩
  simp only [elementsFrom, List.forall_mem_cons]
  exact ⟨trivial, ⟨rfl, .inr (excludes_equals_ofNat 2), fits_of_isCore rfl |>.conjunctive⟩, trivial,
    trivial, by simp⟩

lemma holds_entry {fields : List (String × Value)} (h : IsArgument c (.object fields))
    {p : String × Value} (hp : p ∈ fields) :
    Fragment.conjunctive.Covers (.array [.string p.1, p.2]) ∧
      (tuple [.kind .string, .any]).Holds (fun _ => True) (.array [.string p.1, p.2]) := by
  have hwf := h.wellFormed
  have hshort := h.short
  simp only [Value.isWellFormed, Bool.and_eq_true, Value.areWellFormedFields_iff] at hwf
  simp only [Value.isShort, Value.areShortFields_iff] at hshort
  refine ⟨⟨?_, fun _ => ?_⟩, holds_conj.mpr ?_⟩
  · simp [Value.isWellFormed, Value.areWellFormed, hwf.2 p hp]
  · simp [Value.isShort, Value.areShort, hshort p hp, Number.exactCount]
  · simp only [elementsFrom, List.forall_mem_cons]
    exact ⟨rfl, ⟨_, rfl, same_ofNat 2⟩, ⟨_, _, rfl, rfl, rfl⟩, ⟨_, _, rfl, rfl, trivial⟩, by simp⟩

end Results

/-- The result of a builtin function belongs to what its signature tells of the arguments, with one
exception: an absolute value that is not a number. -/
theorem result_admits_iff {b : Builtin} {apply : Apply} {cs : List Constraint} {vs : List Value}
    {v : Value} (hplain : b.isHigherOrder = false) (hruntime : b.isComptimeOnly = false)
    (hargs : List.Forall₂ IsArgument cs vs) (hrun : b.run apply vs = .ok v) :
    (b.result cs).admits v ↔ (b = .abs → v.isNaN = false) := by
  by_cases hb : b = .abs
  · subst hb
    obtain ⟨x, -, h⟩ := Outcome.bind_eq_ok.mp hrun
    obtain rfl := Except.ok.inj h
    have hr : abs.result cs = (abs.solve cs).instantiate nonNegative := rfl
    rw [hr, admits_instantiate_nonNegative]
    simp [Value.isNaN]
  suffices hresult : (b.result cs).admits v from ⟨fun _ h => absurd h hb, fun _ => hresult⟩
  have harg {i : Nat} {w : Value} (h : arg vs i = .ok w) := isArgument_of_arg hargs h
  have harray {i : Nat} {items : List Value} (h : arrayArg vs i = .ok items) :=
    isArgument_of_arrayArg hargs h
  cases b <;> simp only [run] at hrun <;> obtain ⟨x, hx, h⟩ := Outcome.bind_eq_ok.mp hrun
  case abs => exact absurd rfl hb
  case guard k =>
    obtain ⟨c, hc, harg⟩ := harg hx
    obtain rfl := Except.ok.inj h
    rw [result_guard hc]
    exact admits_guardResult harg
  case length =>
    obtain ⟨c, hc, harg⟩ := harg hx
    rw [result_length hc]
    unfold lengthOf at h
    split at h
    · obtain rfl := Except.ok.inj h
      have hlength := harg.covers.length_lt rfl
      exact admits_lengthOf harg.core harg.wellFormed harg.admits (.array hlength)
    · obtain rfl := Except.ok.inj h
      exact admits_lengthOf harg.core harg.wellFormed harg.admits (.string _)
    · cases h
  case keys =>
    obtain rfl := Except.ok.inj h
    refine admits_instantiate_arrayOf (c := .kind .string) rfl trivial ?_
    exact List.forall_mem_map.mpr fun p _ => ⟨⟨rfl, fun _ => rfl⟩, rfl⟩
  case entries =>
    obtain ⟨c, -, harg⟩ := isArgument_of_objectArg hargs hx
    obtain rfl := Except.ok.inj h
    refine admits_instantiate_arrayOf rfl fits_entry ?_
    exact List.forall_mem_map.mpr fun p hp => holds_entry harg hp
  case concat =>
    obtain ⟨y, hy, h⟩ := Outcome.bind_eq_ok.mp h
    obtain ⟨c, hc, hcarg⟩ := harray hx
    obtain ⟨d, hd, hdarg⟩ := harray hy
    obtain rfl := Except.ok.inj h
    rw [result_concat hc hd]
    refine hcarg.admits_arrayOf_union (fun hw => (hdarg.isUnion_itemOf hw).1) fun w hw => ?_
    have hcovers := hdarg.covers.mem hw
    exact ⟨hcovers, (hdarg.isUnion_itemOf hcovers).2 hw⟩
  case append =>
    obtain ⟨y, hy, h⟩ := Outcome.bind_eq_ok.mp h
    obtain ⟨c, hc, hcarg⟩ := harray hx
    obtain ⟨d, hd, hdarg⟩ := harg hy
    obtain rfl := Except.ok.inj h
    rw [result_append hc hd]
    refine hcarg.admits_arrayOf_union (fun _ => hdarg.isUnion) fun w hw => ?_
    obtain rfl := List.mem_singleton.mp hw
    exact ⟨hdarg.covers, hdarg.admits⟩
  case slice =>
    obtain ⟨y, -, h⟩ := Outcome.bind_eq_ok.mp h
    obtain ⟨z, -, h⟩ := Outcome.bind_eq_ok.mp h
    obtain ⟨c, hc, harg⟩ := harray hx
    obtain rfl := Except.ok.inj h
    rw [result_slice hc]
    exact harg.admits_arrayOf_sublist fun w hw => List.mem_of_mem_drop (List.mem_of_mem_take hw)
  case range =>
    obtain ⟨y, -, h⟩ := Outcome.bind_eq_ok.mp h
    unfold rangeOf at h
    split at h
    · obtain rfl := Except.ok.inj h
      refine admits_instantiate_arrayOf (c := .kind .number) rfl trivial fun w hw => ?_
      obtain ⟨n, -, rfl⟩ := List.mem_map.mp hw
      exact ⟨⟨rfl, fun _ => rfl⟩, rfl⟩
    · cases h
  case join =>
    unfold joinTexts at h
    split at h
    · obtain ⟨y, -, h⟩ := Outcome.bind_eq_ok.mp h
      obtain rfl := Except.ok.inj h
      exact admits_instantiate_kind rfl
    · cases h
  case includes | min | max =>
    obtain ⟨y, -, h⟩ := Outcome.bind_eq_ok.mp h
    obtain rfl := Except.ok.inj h
    exact admits_instantiate_kind rfl
  case values | toText | floor =>
    obtain rfl := Except.ok.inj h
    exact admits_instantiate_kind rfl
  case map | filter | fold | recType => cases hplain
  case fields | fieldType | objectType | unionType | intersectionType | objectFromEntries |
      arrayType | tupleType | literalType | typeImplies => cases hruntime

theorem result_admits_iff_concat :
    let known : Value := .array [.ofNat 1, .bool true]
    let texts : Value := .array [.string "x", .string ""]
    let all : Value := .array [.ofNat 1, .bool true, .string "x", .string ""]
    let cs := [Constraint.equals known, .arrayOf (.kind .string)]
    concat.run (fun v _ => .ok v) [known, texts] = .ok all ∧ (concat.result cs).admits all ∧
      ¬ (concat.result cs).admits (.array [.null]) := by
  intro known texts all cs
  have hargs : List.Forall₂ IsArgument cs [known, texts] :=
    .cons ⟨rfl, rfl, by decide, by decide +kernel⟩
      (.cons ⟨rfl, rfl, by decide, by decide +kernel⟩ .nil)
  have hrun : concat.run (fun v _ => .ok v) [known, texts] = .ok all := rfl
  exact ⟨hrun, (result_admits_iff rfl rfl hargs hrun).mpr (by simp), by decide +kernel⟩

/-- The absolute value of what is not a number is no number that is not negative. -/
theorem abs_result_excludes_nan :
    IsArgument (.kind .number) (.number .nan) ∧
      abs.checkArgs [.kind .number] = .ok () ∧
      abs.run (fun v _ => .ok v) [.number .nan] = .ok (.number .nan) ∧
      ¬ (abs.result [.kind .number]).admits (.number .nan) := by
  refine ⟨⟨rfl, rfl, rfl, by decide +kernel⟩, ?_, rfl, ?_⟩
  · rfl
  · decide +kernel

end Builtin

end Stagewise
