import Mathlib.Data.List.Perm.Subperm
import Stagewise.Value.Basic

/-! Identity of values is symmetric and transitive, as long as the fields of an object have
different names. It is not reflexive: a type whose bound is NaN is not identical to itself. -/

set_option autoImplicit false

namespace Stagewise

namespace Association

variable {κ α : Type} [DecidableEq κ]

lemma mem_of_find?_eq_some {name : κ} {value : α} {entries : List (κ × α)}
    (h : find? name entries = some value) : (name, value) ∈ entries := by
  induction entries with
  | nil => simp [find?] at h
  | cons entry rest ih =>
    obtain ⟨key, old⟩ := entry
    by_cases hk : key = name
    · simp_all [find?]
    · simp only [find?, hk, if_false] at h
      exact List.mem_cons_of_mem _ (ih h)

lemma find?_isSome_iff {name : κ} {entries : List (κ × α)} :
    (find? name entries).isSome ↔ name ∈ names entries := by
  induction entries with
  | nil => simp [find?, names]
  | cons entry rest ih =>
    obtain ⟨key, old⟩ := entry
    by_cases hk : key = name
    · simp [find?, names, hk]
    · simpa [find?, names, hk, Ne.symm hk] using ih

lemma find?_eq_some_of_mem {name : κ} {value : α} {entries : List (κ × α)}
    (hd : (names entries).Nodup) (h : (name, value) ∈ entries) :
    find? name entries = some value := by
  induction entries with
  | nil => simp at h
  | cons entry rest ih =>
    obtain ⟨key, old⟩ := entry
    simp only [names, List.map_cons, List.nodup_cons] at hd
    rcases List.mem_cons.mp h with he | hm
    · simp_all [find?]
    · have hk : key ≠ name := by
        rintro rfl
        exact hd.1 (List.mem_map.mpr ⟨_, hm, rfl⟩)
      simpa [find?, hk] using ih hd.2 hm

end Association

namespace Number

lemma eq_symm {x y : Number} (h : x.eq y) : y.eq x := by
  simp only [eq, Bool.and_eq_true, Bool.not_eq_true', beq_iff_eq] at h ⊢
  exact ⟨⟨h.1.2, h.1.1⟩, h.2.symm⟩

lemma eq_trans {x y z : Number} (h : x.eq y) (k : y.eq z) : x.eq z := by
  simp only [eq, Bool.and_eq_true, Bool.not_eq_true', beq_iff_eq] at h k ⊢
  exact ⟨⟨h.1.1, k.1.2⟩, h.2.trans k.2⟩

lemma same_symm {x y : Number} (h : x.same y) : y.same x := by
  simp only [same, Bool.or_eq_true, Bool.and_eq_true] at h ⊢
  exact h.imp eq_symm And.symm

lemma same_trans {x y z : Number} (h : x.same y) (k : y.same z) : x.same z := by
  simp only [same, Bool.or_eq_true, Bool.and_eq_true] at h k ⊢
  rcases h with h | h <;> rcases k with k | k
  · exact Or.inl (eq_trans h k)
  · simp_all [eq]
  · simp_all [eq]
  · exact Or.inr ⟨h.1, k.2⟩

end Number

open Association

mutual

/-- The fields of every object inside have different names. What a closure captured is never
compared, so nothing is asked of it. -/
def Value.isWellFormed : Value → Bool
  | .object fields => decide (names fields).Nodup && Value.areWellFormedFields fields
  | .array items => Value.areWellFormed items
  | .type c => c.isWellFormed
  | _ => true
termination_by structural v => v

def Value.areWellFormedFields : List (String × Value) → Bool
  | [] => true
  | (_, v) :: fields => v.isWellFormed && Value.areWellFormedFields fields
termination_by structural fields => fields

def Value.areWellFormed : List Value → Bool
  | [] => true
  | v :: items => v.isWellFormed && Value.areWellFormed items
termination_by structural items => items

def Constraint.isWellFormed : Constraint → Bool
  | .equals v => v.isWellFormed
  | .field _ c | .elements c | .length c | .elementAt _ c | .neg c | .fix c => c.isWellFormed
  | .conj cs | .disj cs => Constraint.areWellFormed cs
  | _ => true
termination_by structural c => c

def Constraint.areWellFormed : List Constraint → Bool
  | [] => true
  | c :: cs => c.isWellFormed && Constraint.areWellFormed cs
termination_by structural cs => cs

end

namespace Value

lemma areWellFormedFields_iff {fields : List (String × Value)} :
    areWellFormedFields fields ↔ ∀ p ∈ fields, p.2.isWellFormed := by
  induction fields with
  | nil => simp [areWellFormedFields]
  | cons p fields ih => simp [areWellFormedFields, ih]

lemma areWellFormed_iff {items : List Value} :
    areWellFormed items ↔ ∀ v ∈ items, v.isWellFormed := by
  induction items with
  | nil => simp [areWellFormed]
  | cons v items ih => simp [areWellFormed, ih]

lemma sameFields_iff {fields other : List (String × Value)} :
    sameFields fields other ↔
      ∀ p ∈ fields, ∃ w, find? p.1 other = some w ∧ p.2.same w := by
  induction fields with
  | nil => simp [sameFields]
  | cons p fields ih =>
    obtain ⟨name, v⟩ := p
    cases hf : find? name other <;> simp [sameFields, hf, ih]

lemma sameItems_iff {items other : List Value} :
    sameItems items other ↔ List.Forall₂ (fun v w => v.same w) items other := by
  induction items generalizing other with
  | nil => cases other <;> simp [sameItems]
  | cons v items ih => cases other <;> simp [sameItems, ih]

lemma names_perm_of_sameFields {fields other : List (String × Value)}
    (hd : (names fields).Nodup) (hl : fields.length = other.length)
    (h : sameFields fields other) : (names fields).Perm (names other) := by
  have hs : names fields ⊆ names other := by
    intro name hn
    obtain ⟨p, hp, rfl⟩ := List.mem_map.mp hn
    obtain ⟨w, hw, _⟩ := sameFields_iff.mp h p hp
    exact find?_isSome_iff.mp (by simp [hw])
  exact (List.Nodup.subperm hd hs).perm_of_length_le (by simp [names, hl])

end Value

mutual

theorem Value.same_symm : ∀ {v w : Value}, v.isWellFormed → v.same w → w.same v
  | .number a, w, _, h => by
    cases w <;> simp only [Value.same, Bool.false_eq_true] at h ⊢
    exact Number.same_symm h
  | .string a, w, _, h | .bool a, w, _, h | .null, w, _, h | .closure f _, w, _, h
  | .builtin a, w, _, h => by cases w <;> simp_all [Value.same]
  | .object a, w, hw, h => by
    cases w <;> simp only [Value.same, Bool.false_eq_true, Bool.and_eq_true, beq_iff_eq,
      Value.isWellFormed, decide_eq_true_eq] at h hw ⊢
    next b =>
      refine ⟨h.1.symm, Value.sameFields_iff.mpr fun p hp => ?_⟩
      have hn := Value.names_perm_of_sameFields hw.1 h.1 h.2
      have hm : p.1 ∈ names a := hn.mem_iff.mpr (List.mem_map.mpr ⟨p, hp, rfl⟩)
      obtain ⟨q, hq, he⟩ := List.mem_map.mp hm
      obtain ⟨u, hu, hs⟩ := Value.sameFields_symm hw.2 h.2 q hq
      rw [he, find?_eq_some_of_mem (hn.nodup_iff.mp hw.1) hp, Option.some.injEq] at hu
      subst hu
      exact ⟨q.2, find?_eq_some_of_mem hw.1 (by rw [← he]; exact hq), hs⟩
  | .array a, w, hw, h => by
    cases w <;> simp only [Value.same, Bool.false_eq_true] at h ⊢
    exact Value.sameItems_symm (by simpa [Value.isWellFormed] using hw) h
  | .type c, w, hw, h => by
    cases w <;> simp only [Value.same, Bool.false_eq_true] at h ⊢
    exact Constraint.same_symm (by simpa [Value.isWellFormed] using hw) h

theorem Value.sameFields_symm : ∀ {fields other : List (String × Value)},
    Value.areWellFormedFields fields → Value.sameFields fields other →
      ∀ p ∈ fields, ∃ w, find? p.1 other = some w ∧ w.same p.2
  | [], _, _, _ => by simp
  | (name, v) :: fields, other, hw, h => by
    simp only [Value.areWellFormedFields, Bool.and_eq_true] at hw
    intro p hp
    obtain ⟨u, hu, hs⟩ := Value.sameFields_iff.mp h p hp
    rcases List.mem_cons.mp hp with rfl | hp
    · exact ⟨u, hu, Value.same_symm hw.1 hs⟩
    · have ht : Value.sameFields fields other := by
        simp only [Value.sameFields, Bool.and_eq_true] at h
        exact h.2
      exact Value.sameFields_symm hw.2 ht p hp

theorem Value.sameItems_symm : ∀ {items other : List Value}, Value.areWellFormed items →
    Value.sameItems items other → Value.sameItems other items
  | [], other, _, h => by cases other <;> simp_all [Value.sameItems]
  | v :: items, other, hw, h => by
    simp only [Value.areWellFormed, Bool.and_eq_true] at hw
    cases other <;> simp only [Value.sameItems, Bool.false_eq_true, Bool.and_eq_true] at h ⊢
    exact ⟨Value.same_symm hw.1 h.1, Value.sameItems_symm hw.2 h.2⟩

theorem Constraint.same_symm : ∀ {c d : Constraint}, c.isWellFormed → c.same d → d.same c
  | .kind _, d, _, h | .bvar _, d, _, h | .ref _, d, _, h | .var _, d, _, h | .any, d, _, h
  | .never, d, _, h => by cases d <;> simp_all [Constraint.same]
  | .equals v, d, hc, h => by
    cases d <;> simp only [Constraint.same, Bool.false_eq_true] at h ⊢
    exact Value.same_symm (by simpa [Constraint.isWellFormed] using hc) h
  | .bound r n, d, _, h => by
    cases d <;> simp only [Constraint.same, Bool.false_eq_true, Bool.and_eq_true, beq_iff_eq] at h ⊢
    exact ⟨h.1.symm, Number.eq_symm h.2⟩
  | .field _ c, d, hc, h | .elementAt _ c, d, hc, h => by
    cases d <;> simp only [Constraint.same, Bool.false_eq_true, Bool.and_eq_true,
      beq_iff_eq] at h ⊢
    exact ⟨h.1.symm, Constraint.same_symm (by simpa [Constraint.isWellFormed] using hc) h.2⟩
  | .elements c, d, hc, h | .length c, d, hc, h | .neg c, d, hc, h | .fix c, d, hc, h => by
    cases d <;> simp only [Constraint.same, Bool.false_eq_true] at h ⊢
    exact Constraint.same_symm (by simpa [Constraint.isWellFormed] using hc) h
  | .conj cs, d, hc, h | .disj cs, d, hc, h => by
    cases d <;> simp only [Constraint.same, Bool.false_eq_true] at h ⊢
    exact Constraint.sameList_symm (by simpa [Constraint.isWellFormed] using hc) h

theorem Constraint.sameList_symm : ∀ {cs ds : List Constraint}, Constraint.areWellFormed cs →
    Constraint.sameList cs ds → Constraint.sameList ds cs
  | [], ds, _, h => by cases ds <;> simp_all [Constraint.sameList]
  | c :: cs, ds, hc, h => by
    simp only [Constraint.areWellFormed, Bool.and_eq_true] at hc
    cases ds <;> simp only [Constraint.sameList, Bool.false_eq_true, Bool.and_eq_true] at h ⊢
    exact ⟨Constraint.same_symm hc.1 h.1, Constraint.sameList_symm hc.2 h.2⟩

end

mutual

theorem Value.same_trans : ∀ {v w u : Value}, v.same w → w.same u → v.same u
  | .number a, w, u, h, k => by
    cases w <;> simp only [Value.same, Bool.false_eq_true] at h
    cases u <;> simp only [Value.same, Bool.false_eq_true] at k ⊢
    exact Number.same_trans h k
  | .string a, w, u, h, k | .bool a, w, u, h, k | .closure f _, w, u, h, k
  | .builtin a, w, u, h, k => by
    cases w <;> simp only [Value.same, Bool.false_eq_true, beq_iff_eq] at h
    cases u <;> simp_all [Value.same]
  | .null, w, u, h, k => by
    cases w <;> simp only [Value.same, Bool.false_eq_true] at h
    cases u <;> simp_all [Value.same]
  | .object a, w, u, h, k => by
    cases w <;> simp only [Value.same, Bool.false_eq_true, Bool.and_eq_true, beq_iff_eq] at h
    cases u <;> simp only [Value.same, Bool.false_eq_true, Bool.and_eq_true, beq_iff_eq] at k ⊢
    exact ⟨h.1.trans k.1, Value.sameFields_trans h.2 k.2⟩
  | .array a, w, u, h, k => by
    cases w <;> simp only [Value.same, Bool.false_eq_true] at h
    cases u <;> simp only [Value.same, Bool.false_eq_true] at k ⊢
    exact Value.sameItems_trans h k
  | .type c, w, u, h, k => by
    cases w <;> simp only [Value.same, Bool.false_eq_true] at h
    cases u <;> simp only [Value.same, Bool.false_eq_true] at k ⊢
    exact Constraint.same_trans h k

theorem Value.sameFields_trans : ∀ {fields other more : List (String × Value)},
    Value.sameFields fields other → Value.sameFields other more → Value.sameFields fields more
  | [], _, _, _, _ => by simp [Value.sameFields]
  | (name, v) :: fields, other, more, h, k => by
    obtain ⟨w, hw, hs⟩ := Value.sameFields_iff.mp h (name, v) List.mem_cons_self
    obtain ⟨u, hu, hs'⟩ := Value.sameFields_iff.mp k (name, w) (mem_of_find?_eq_some hw)
    simp only [Value.sameFields, hw, Bool.and_eq_true] at h
    simp only at hu
    simp only [Value.sameFields, hu, Bool.and_eq_true]
    exact ⟨Value.same_trans hs hs', Value.sameFields_trans h.2 k⟩

theorem Value.sameItems_trans : ∀ {items other more : List Value},
    Value.sameItems items other → Value.sameItems other more → Value.sameItems items more
  | [], other, more, h, k => by cases other <;> cases more <;> simp_all [Value.sameItems]
  | v :: items, other, more, h, k => by
    cases other <;> simp only [Value.sameItems, Bool.false_eq_true, Bool.and_eq_true] at h
    cases more <;> simp only [Value.sameItems, Bool.false_eq_true, Bool.and_eq_true] at k ⊢
    exact ⟨Value.same_trans h.1 k.1, Value.sameItems_trans h.2 k.2⟩

theorem Constraint.same_trans : ∀ {c d e : Constraint}, c.same d → d.same e → c.same e
  | .kind _, d, e, h, k | .bvar _, d, e, h, k | .ref _, d, e, h, k | .var _, d, e, h, k => by
    cases d <;> simp only [Constraint.same, Bool.false_eq_true, beq_iff_eq] at h
    cases e <;> simp_all [Constraint.same]
  | .equals v, d, e, h, k => by
    cases d <;> simp only [Constraint.same, Bool.false_eq_true] at h
    cases e <;> simp only [Constraint.same, Bool.false_eq_true] at k ⊢
    exact Value.same_trans h k
  | .bound r n, d, e, h, k => by
    cases d <;> simp only [Constraint.same, Bool.false_eq_true, Bool.and_eq_true, beq_iff_eq] at h
    cases e <;> simp only [Constraint.same, Bool.false_eq_true, Bool.and_eq_true, beq_iff_eq] at k ⊢
    exact ⟨h.1.trans k.1, Number.eq_trans h.2 k.2⟩
  | .field _ c, d, e, h, k | .elementAt _ c, d, e, h, k => by
    cases d <;> simp only [Constraint.same, Bool.false_eq_true, Bool.and_eq_true, beq_iff_eq] at h
    cases e <;> simp only [Constraint.same, Bool.false_eq_true, Bool.and_eq_true, beq_iff_eq] at k ⊢
    exact ⟨h.1.trans k.1, Constraint.same_trans h.2 k.2⟩
  | .elements c, d, e, h, k | .length c, d, e, h, k | .neg c, d, e, h, k | .fix c, d, e, h, k => by
    cases d <;> simp only [Constraint.same, Bool.false_eq_true] at h
    cases e <;> simp only [Constraint.same, Bool.false_eq_true] at k ⊢
    exact Constraint.same_trans h k
  | .conj cs, d, e, h, k | .disj cs, d, e, h, k => by
    cases d <;> simp only [Constraint.same, Bool.false_eq_true] at h
    cases e <;> simp only [Constraint.same, Bool.false_eq_true] at k ⊢
    exact Constraint.sameList_trans h k
  | .any, d, e, h, k | .never, d, e, h, k => by
    cases d <;> simp only [Constraint.same, Bool.false_eq_true] at h
    cases e <;> simp_all [Constraint.same]

theorem Constraint.sameList_trans : ∀ {cs ds es : List Constraint},
    Constraint.sameList cs ds → Constraint.sameList ds es → Constraint.sameList cs es
  | [], ds, es, h, k => by cases ds <;> cases es <;> simp_all [Constraint.sameList]
  | c :: cs, ds, es, h, k => by
    cases ds <;> simp only [Constraint.sameList, Bool.false_eq_true, Bool.and_eq_true] at h
    cases es <;> simp only [Constraint.sameList, Bool.false_eq_true, Bool.and_eq_true] at k ⊢
    exact ⟨Constraint.same_trans h.1 k.1, Constraint.sameList_trans h.2 k.2⟩

end

mutual

theorem Value.isWellFormed_of_same : ∀ {v w : Value}, v.isWellFormed → v.same w → w.isWellFormed
  | .object a, w, hv, h => by
    cases w <;> simp only [Value.same, Bool.false_eq_true, Bool.and_eq_true, beq_iff_eq,
      Value.isWellFormed, decide_eq_true_eq] at h hv ⊢
    next b =>
      have hn := Value.names_perm_of_sameFields hv.1 h.1 h.2
      refine ⟨hn.nodup_iff.mp hv.1, Value.areWellFormedFields_iff.mpr fun p hp => ?_⟩
      have hm : p.1 ∈ names a := hn.mem_iff.mpr (List.mem_map.mpr ⟨p, hp, rfl⟩)
      obtain ⟨q, hq, he⟩ := List.mem_map.mp hm
      obtain ⟨u, hu, hw⟩ := Value.areWellFormedFields_of_same hv.2 h.2 q hq
      rw [he, find?_eq_some_of_mem (hn.nodup_iff.mp hv.1) hp, Option.some.injEq] at hu
      exact hu ▸ hw
  | .array a, w, hv, h => by
    cases w <;> simp only [Value.same, Bool.false_eq_true, Value.isWellFormed] at h hv ⊢
    exact Value.areWellFormed_of_same hv h
  | .type c, w, hv, h => by
    cases w <;> simp only [Value.same, Bool.false_eq_true, Value.isWellFormed] at h hv ⊢
    exact Constraint.isWellFormed_of_same hv h
  | .number _, w, _, h | .string _, w, _, h | .bool _, w, _, h | .null, w, _, h
  | .closure _ _, w, _, h | .builtin _, w, _, h => by
    cases w <;> simp_all [Value.same, Value.isWellFormed]

theorem Value.areWellFormedFields_of_same : ∀ {fields other : List (String × Value)},
    Value.areWellFormedFields fields → Value.sameFields fields other →
      ∀ p ∈ fields, ∃ w, find? p.1 other = some w ∧ w.isWellFormed
  | [], _, _, _ => by simp
  | (name, v) :: fields, other, hv, h => by
    simp only [Value.areWellFormedFields, Bool.and_eq_true] at hv
    intro p hp
    obtain ⟨u, hu, hs⟩ := Value.sameFields_iff.mp h p hp
    rcases List.mem_cons.mp hp with rfl | hp
    · exact ⟨u, hu, Value.isWellFormed_of_same hv.1 hs⟩
    · have ht : Value.sameFields fields other := by
        simp only [Value.sameFields, Bool.and_eq_true] at h
        exact h.2
      exact Value.areWellFormedFields_of_same hv.2 ht p hp

theorem Value.areWellFormed_of_same : ∀ {items other : List Value}, Value.areWellFormed items →
    Value.sameItems items other → Value.areWellFormed other
  | [], other, _, h => by cases other <;> simp_all [Value.sameItems, Value.areWellFormed]
  | v :: items, other, hv, h => by
    cases other <;> simp only [Value.sameItems, Bool.false_eq_true, Bool.and_eq_true,
      Value.areWellFormed] at h hv ⊢
    exact ⟨Value.isWellFormed_of_same hv.1 h.1, Value.areWellFormed_of_same hv.2 h.2⟩

theorem Constraint.isWellFormed_of_same : ∀ {c d : Constraint}, c.isWellFormed → c.same d →
    d.isWellFormed
  | .equals v, d, hc, h => by
    cases d <;> simp only [Constraint.same, Bool.false_eq_true, Constraint.isWellFormed] at h hc ⊢
    exact Value.isWellFormed_of_same hc h
  | .field _ c, d, hc, h | .elementAt _ c, d, hc, h => by
    cases d <;> simp only [Constraint.same, Bool.false_eq_true, Bool.and_eq_true,
      Constraint.isWellFormed] at h hc ⊢
    exact Constraint.isWellFormed_of_same hc h.2
  | .elements c, d, hc, h | .length c, d, hc, h | .neg c, d, hc, h | .fix c, d, hc, h => by
    cases d <;> simp only [Constraint.same, Bool.false_eq_true, Constraint.isWellFormed] at h hc ⊢
    exact Constraint.isWellFormed_of_same hc h
  | .conj cs, d, hc, h | .disj cs, d, hc, h => by
    cases d <;> simp only [Constraint.same, Bool.false_eq_true, Constraint.isWellFormed] at h hc ⊢
    exact Constraint.areWellFormed_of_same hc h
  | .kind _, d, _, h | .bound _ _, d, _, h | .bvar _, d, _, h | .ref _, d, _, h | .var _, d, _, h
  | .any, d, _, h | .never, d, _, h => by
    cases d <;> simp_all [Constraint.same, Constraint.isWellFormed]

theorem Constraint.areWellFormed_of_same : ∀ {cs ds : List Constraint},
    Constraint.areWellFormed cs → Constraint.sameList cs ds → Constraint.areWellFormed ds
  | [], ds, _, h => by cases ds <;> simp_all [Constraint.sameList, Constraint.areWellFormed]
  | c :: cs, ds, hc, h => by
    cases ds <;> simp only [Constraint.sameList, Bool.false_eq_true, Bool.and_eq_true,
      Constraint.areWellFormed] at h hc ⊢
    exact ⟨Constraint.isWellFormed_of_same hc.1 h.1, Constraint.areWellFormed_of_same hc.2 h.2⟩

end

end Stagewise
