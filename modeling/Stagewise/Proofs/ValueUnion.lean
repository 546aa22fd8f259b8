import Stagewise.Proofs.FlatUnion
import Stagewise.Proofs.Lengths

/-! Unions of descriptions of values. What the description of one value entails of the description
of another one is always found, so that the branches that stay are incomparable. -/

set_option autoImplicit false

namespace Stagewise

lemma Fragment.isFlat_conjunctive : Fragment.conjunctive.IsFlat := ⟨rfl, rfl⟩

namespace Constraint

lemma excludes_equals_ofNat (n : Nat) : (Constraint.equals (.ofNat n)).Excludes := by
  have hlt : ∀ {m}, m ≤ 1 → m < Number.exactCount := fun h => Nat.lt_of_le_of_lt h (by decide)
  obtain ⟨m, hm, hne⟩ : ∃ m ≤ 1, m ≠ n := by
    by_cases hn : n = 0
    · exact ⟨1, Nat.le_refl 1, by omega⟩
    · exact ⟨0, Nat.zero_le 1, by omega⟩
  exact ⟨.ofNat m, Number.zero_le_ofNat (hlt hm), fun h => hne (Number.eq_of_same_ofNat (hlt hm) h)⟩

mutual

theorem fits_ofValue : ∀ {v : Value}, v.isWellFormed → (ofValue v).Fits .conjunctive false .plain
  | .object fields, hv => by
    rw [Value.isWellFormed, Bool.and_eq_true] at hv
    rw [ofValue, fits_conj]
    exact ⟨by simp, List.forall_mem_cons.mpr ⟨trivial, fits_ofFields hv.2⟩⟩
  | .array items, hv => by
    rw [ofValue, fits_conj]
    refine ⟨by simp, List.forall_mem_cons.mpr ⟨trivial, List.forall_mem_cons.mpr ⟨?_, ?_⟩⟩⟩
    · exact ⟨rfl, .inr (excludes_equals_ofNat _), rfl, rfl, by simp [Fragment.conjunctive],
        by simp [Fragment.conjunctive]⟩
    · exact fits_ofItems 0 hv
  | .number _, hv | .string _, hv | .bool _, hv | .null, hv | .type _, hv =>
    ⟨rfl, hv, by simp [Fragment.conjunctive], by simp [Fragment.conjunctive]⟩
  | .closure _ _, _ | .builtin _, _ => trivial

theorem fits_ofFields : ∀ {fields : List (String × Value)}, Value.areWellFormedFields fields →
    ∀ c ∈ ofFields fields, c.Fits .conjunctive false .plain
  | [], _ => by simp [ofFields]
  | (name, v) :: fields, h => by
    rw [Value.areWellFormedFields, Bool.and_eq_true] at h
    rw [ofFields]
    exact List.forall_mem_cons.mpr ⟨by simpa [Fits] using fits_ofValue h.1, fits_ofFields h.2⟩

theorem fits_ofItems : ∀ {items : List Value} (start : Nat), Value.areWellFormed items →
    ∀ c ∈ ofItems start items, c.Fits .conjunctive false .plain
  | [], _, _ => by simp [ofItems]
  | v :: items, start, h => by
    rw [Value.areWellFormed, Bool.and_eq_true] at h
    rw [ofItems]
    exact List.forall_mem_cons.mpr ⟨fits_ofValue h.1, fits_ofItems (start + 1) h.2⟩

end

section Descriptions

variable {v w : Value} {items : List Value} {n : Nat}

lemma not_holds_bools (X : Value → Prop) (h : (ofValue w).Holds X (.bool true)) :
    ¬ (ofValue w).Holds X (.bool false) := by
  cases w with
  | object | array =>
    rw [ofValue, holds_conj] at h
    have hkind := h _ List.mem_cons_self
    simp [Holds, Value.kind, Kind.refines] at hkind
  | closure | builtin => simp [ofValue, Holds, Value.kind, Kind.refines] at h
  | bool b => cases b <;> simp_all [ofValue, Holds, Value.same]
  | number | string | null | type => simp [ofValue, Holds, Value.same] at h

structure IsDescribed (v : Value) : Prop where
  covers : Fragment.conjunctive.Covers v
  self : v.same v

lemma IsDescribed.determines (h : IsDescribed w) (hn : 2 * (ofValue w).size + 2 ≤ n) :
    Determines w ((ofValue w).normalize n) :=
  (determines_ofValue h.covers.1 h.self).normalize h.covers hn

lemma entails_description {b : Constraint} (h : IsDescribed w) (hn : 2 * (ofValue w).size < n)
    (hb : b.Tidy .shape .plain) (hsize : 2 * b.size ≤ n)
    (hle : Includes .conjunctive ((ofValue w).normalize (n + 1)) b) :
    entails n [] ((ofValue w).normalize (n + 1)) b := by
  have hw := h.determines (n := n + 1) (by omega)
  have htidy := (isNormal_normalize (determines_ofValue h.covers.1 h.self).fits
    (show (ofValue w).size ≤ n + 1 by omega)).tidy
  have hself : ((ofValue w).normalize (n + 1)).admits w := (htidy.admits_iff _).mpr hw.holds
  exact hw.settles.entails htidy hw.holds h.covers hb
    ((hb.admits_iff _).mp (hle w h.covers hself)) hsize

variable (hitems : ∀ w ∈ items, IsDescribed w)

include hitems

lemma complete_descriptions (hn : ∀ w ∈ items, 4 * (ofValue w).size < n) (hpos : 2 ≤ n)
    {a b : Constraint} (ha : a = .kind .bool ∨ ∃ w ∈ items, (ofValue w).normalize (n + 1) = a)
    (hb : b = .kind .bool ∨ ∃ w ∈ items, (ofValue w).normalize (n + 1) = b)
    (hle : Includes .conjunctive a b) : entails n [] a b := by
  have hfit : b.Tidy .shape .plain ∧ 2 * b.size ≤ n := by
    rcases hb with rfl | ⟨w, hw, rfl⟩
    · exact ⟨trivial, hpos⟩
    · have hlt := hn w hw
      obtain ⟨hcovers, hself⟩ := hitems w hw
      have hsize := (normalize_ofValue (n := n + 1) isDistinct_isWellFormed (hcovers.2 rfl)
        hcovers.1 (by omega)).2
      have htidy := (isNormal_normalize (determines_ofValue hcovers.1 hself).fits
        (show (ofValue w).size ≤ n + 1 by omega)).tidy
      exact ⟨htidy, by omega⟩
  rcases ha with rfl | ⟨w, hw, rfl⟩
  · rcases hb with rfl | ⟨w, hw, rfl⟩
    · exact entails_kind rfl (by omega)
    · -- no value is both truth values
      have hlt := hn w hw
      have hnormal := isNormal_flat Fragment.isFlat_conjunctive
        (fits_ofValue (hitems w hw).covers.1) (show (ofValue w).size ≤ n + 1 by omega)
      have hbool : ∀ t, (ofValue w).Holds (fun _ => True) (.bool t) := fun t => by
        have hcovers : Fragment.conjunctive.Covers (.bool t) := ⟨rfl, fun _ => rfl⟩
        have hadmits := hle (.bool t) hcovers (by cases t <;> decide)
        rw [hnormal.tidy.admits_iff fun _ => True] at hadmits
        exact (hnormal.holds _ _ hcovers).mp hadmits
      exact absurd (hbool false) (not_holds_bools _ (hbool true))
  · have hlt := hn w hw
    exact entails_description (hitems w hw) (by omega) hfit.1 hfit.2 hle

theorem isUnion_descriptions (hv : Fragment.conjunctive.Covers v) :
    IsUnion .conjunctive true 1 v (simplify (.disj (items.map ofValue))) ∧
      ((simplify (.disj (items.map ofValue))).admits v ↔ ∃ w ∈ items, (ofValue w).admits v) := by
  obtain ⟨n, hn, hpos, he⟩ := simplify_disj_eq (items.map ofValue)
  have hfits : ∀ c ∈ items.map ofValue, c.Fits .conjunctive false .plain :=
    List.forall_mem_map.mpr fun w hw => fits_ofValue (hitems w hw).covers.1
  have hsize : ∀ c ∈ items.map ofValue, c.size ≤ n + 1 := fun c hc => by
    have := hn c hc
    omega
  have htidy := tidy_map_normalize Fragment.isFlat_conjunctive hfits hsize
  have hcomplete : ∀ a b, a = .kind .bool ∨ a ∈ (items.map ofValue).map (normalize (n + 1)) →
      b = .kind .bool ∨ b ∈ (items.map ofValue).map (normalize (n + 1)) →
      Includes .conjunctive a b → entails n [] a b := by
    intro a b ha hb hle
    simp only [List.map_map, List.mem_map, Function.comp_apply] at ha hb
    exact complete_descriptions hitems (fun w hw => hn _ (List.mem_map_of_mem hw)) hpos ha hb hle
  rw [he]
  have hunion : IsUnion .conjunctive true 1 v
      (disjunction (n + 1) ((items.map ofValue).map (normalize (n + 1)))) :=
    ⟨fun b hb => tidy_branchesOf_disjunction Fragment.isFlat_conjunctive htidy hb,
      width_disjunction_of_complete Fragment.isFlat_conjunctive htidy hcomplete⟩
  refine ⟨hunion, ?_⟩
  rw [hunion.admits_iff, ← holds_iff_branchesOf,
    holds_disjunction_of_complete Fragment.isFlat_conjunctive htidy hcomplete hv]
  simp only [List.map_map, List.mem_map, Function.comp_apply, exists_exists_and_eq_and]
  refine exists_congr fun w => and_congr_right fun hw => ?_
  have hmem := List.mem_map_of_mem (f := ofValue) hw
  rw [(hfits _ hmem).admits_iff fun _ => True]
  exact (isNormal_flat Fragment.isFlat_conjunctive (hfits _ hmem) (hsize _ hmem)).holds _ v hv

end Descriptions

end Constraint

end Stagewise
