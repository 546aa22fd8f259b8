import Stagewise.Proofs.Count
import Stagewise.Proofs.Meaning

/-! Fragments of the constraints, by what they may say and where, and the tidy constraints of a
fragment, which the steps of normalisation take and give. -/

set_option autoImplicit false

namespace Stagewise

open Association

mutual

/-- Every array inside is short enough for its length to be an exact number. -/
def Value.isShort : Value → Bool
  | .object fields => Value.areShortFields fields
  | .array items => items.length < Number.exactCount && Value.areShort items
  | _ => true
termination_by structural v => v

def Value.areShortFields : List (String × Value) → Bool
  | [] => true
  | (_, v) :: fields => v.isShort && Value.areShortFields fields
termination_by structural fields => fields

def Value.areShort : List Value → Bool
  | [] => true
  | v :: items => v.isShort && Value.areShort items
termination_by structural items => items

end

namespace Value

lemma areShortFields_iff {fields : List (String × Value)} :
    areShortFields fields ↔ ∀ p ∈ fields, p.2.isShort := by
  induction fields with
  | nil => simp [areShortFields]
  | cons p fields ih => simp [areShortFields, ih]

lemma areShort_iff {items : List Value} : areShort items ↔ ∀ v ∈ items, v.isShort := by
  induction items with
  | nil => simp [areShort]
  | cons v items ih => simp [areShort, ih]

def isNaN : Value → Bool
  | .number n => n.isNaN
  | _ => false

lemma isNaN_eq_of_same {v w : Value} (h : v.same w) : v.isNaN = w.isNaN := by
  cases v <;> cases w <;> simp only [same, Bool.false_eq_true] at h <;> try rfl
  simp only [Number.same, Number.eq] at h
  simp only [isNaN]
  grind

end Value

structure Fragment where
  negations : Bool
  unions : Bool
  lengths : Bool
  /-- Statements about lengths may be such that no length fails them. -/
  idle : Bool
  tag : String → Bool
  atomic : Bool := false

/-- Where a constraint stands. Recursion and literals do not meet. -/
inductive Position where
  | plain
  | deep
  /-- Above every part of the value: the variable around does not occur, and recursive
  constraints are nested less deep than this. -/
  | shallow (depth : Nat)

namespace Position

def below : Position → Position
  | plain => plain
  | _ => deep

def Allows : Position → Nat → Prop
  | plain, _ => False
  | deep, _ => True
  | shallow m, k => k < m

def Le : Position → Position → Prop
  | plain, plain | deep, deep | shallow _, deep => True
  | shallow k, shallow m => k ≤ m
  | _, _ => False

lemma Le.refl (p : Position) : p.Le p := by
  cases p <;> simp [Le]

lemma Le.below_eq {p q : Position} (h : p.Le q) : p.below = q.below := by
  cases p <;> cases q <;> simp_all [Le, below]

lemma Allows.mono {p q : Position} {k : Nat} (hk : p.Allows k) (h : p.Le q) : q.Allows k := by
  cases p <;> cases q <;> simp_all [Le, Allows]
  omega

lemma Allows.le {p : Position} {k : Nat} (h : p.Allows k) : (shallow k).Le p := by
  cases p <;> simp_all [Le, Allows]
  omega

end Position

namespace Fragment

variable {F : Fragment}

def below (F : Fragment) (name : String) (p : Position) : Position :=
  if F.tag name then .plain else p.below

def Covers (F : Fragment) (v : Value) : Prop := v.isWellFormed ∧ (F.lengths → v.isShort)

lemma below_eq_of_le {p q : Position} (h : p.Le q) (name : String) :
    F.below name p = F.below name q := by
  simp [below, h.below_eq]

@[simp] lemma below_plain (F : Fragment) (name : String) : F.below name .plain = .plain := by
  simp [below, Position.below]

lemma Covers.find? {name : String} {fields : List (String × Value)} {v : Value}
    (h : F.Covers (.object fields)) (hf : Association.find? name fields = some v) :
    F.Covers v := by
  refine ⟨Value.isWellFormed_of_find? h.1 hf, fun hl => ?_⟩
  have hs := h.2 hl
  simp only [Value.isShort] at hs
  exact Value.areShortFields_iff.mp hs _ (mem_of_find?_eq_some hf)

lemma Covers.mem {items : List Value} {v : Value} (h : F.Covers (.array items)) (hv : v ∈ items) :
    F.Covers v := by
  refine ⟨Value.isWellFormed_of_mem h.1 hv, fun hl => ?_⟩
  have hs := h.2 hl
  simp only [Value.isShort, Bool.and_eq_true] at hs
  exact Value.areShort_iff.mp hs.2 v hv

lemma Covers.getElem? {items : List Value} {i : Nat} {v : Value} (h : F.Covers (.array items))
    (hi : items[i]? = some v) : F.Covers v :=
  h.mem (List.mem_of_getElem? hi)

lemma Covers.length_lt {items : List Value} (h : F.Covers (.array items)) (hl : F.lengths) :
    items.length < Number.exactCount := by
  have hs := h.2 hl
  simp only [Value.isShort, Bool.and_eq_true, decide_eq_true_eq] at hs
  exact hs.1

lemma covers_number (F : Fragment) (x : Number) : F.Covers (.number x) := ⟨rfl, fun _ => rfl⟩

lemma hereditary_covers (F : Fragment) : Value.Hereditary F.Covers :=
  ⟨Covers.find?, Covers.mem, F.covers_number⟩

end Fragment

namespace Constraint

mutual

def isCore : Constraint → Bool
  | .kind _ | .bound _ _ | .any | .never => true
  | .equals v => v.isWellFormed
  | .field _ c | .elements c | .elementAt _ c | .neg c => c.isCore
  | .conj cs => areCore cs
  | _ => false
termination_by structural c => c

def areCore : List Constraint → Bool
  | [] => true
  | c :: cs => c.isCore && areCore cs
termination_by structural cs => cs

end

def isElements : Constraint → Bool
  | .elements _ => true
  | _ => false

def Excludes (c : Constraint) : Prop :=
  ∃ x : Number, Number.zero.le x ∧ ¬ c.Holds (fun _ => True) (.number x)

mutual

/-- Whether a constraint belongs to a fragment and may stand at a position. In a tidy one no bound
is NaN, and no conjunction has two statements about all items: from two of them entailment would
conclude that there is an item. -/
def Fits (F : Fragment) (tidy : Bool) : Constraint → Position → Prop
  | .kind _, _ | .any, _ | .never, _ => True
  | .equals v, p => p = .plain ∧ v.isWellFormed ∧ (F.unions → v.isNaN = false) ∧
      (F.atomic → v.kind.refines .object = false)
  | .bound _ n, p => p = .plain ∧ (tidy → n.isNaN = false)
  | .field name c, p => c.Fits F tidy (F.below name p)
  | .elements c, p => c.Fits F tidy p.below
  | .elementAt _ c, p => c.Fits F tidy p.below
  | .length c, _ => F.lengths ∧ (F.idle ∨ c.Excludes) ∧ c.Fits F tidy .plain
  | .conj cs, p => (tidy → cs.countP isElements ≤ 1) ∧ AllFit F tidy cs p
  | .disj cs, p => F.unions ∧ AllFit F tidy cs p
  | .neg c, p => F.negations ∧ p = .plain ∧ c.Fits F tidy .plain
  | .fix body, p => ∃ k, p.Allows k ∧ body.Fits F tidy (.shallow k)
  | .bvar i, p => i = 0 ∧ p = .deep
  | .ref _, _ | .var _, _ => False
termination_by structural c => c

def AllFit (F : Fragment) (tidy : Bool) : List Constraint → Position → Prop
  | [], _ => True
  | c :: cs, p => c.Fits F tidy p ∧ AllFit F tidy cs p
termination_by structural cs => cs

end

abbrev Tidy (F : Fragment) (p : Position) (c : Constraint) : Prop := c.Fits F true p

section Fits

variable {F : Fragment} {tidy : Bool} {p q : Position}

lemma allFit_iff {cs : List Constraint} : AllFit F tidy cs p ↔ ∀ c ∈ cs, c.Fits F tidy p := by
  induction cs with
  | nil => simp [AllFit]
  | cons c cs ih => simp [AllFit, ih]

lemma AllFit.imp {G : Fragment} {t : Bool} {cs : List Constraint} (h : AllFit F tidy cs p)
    (himp : ∀ c ∈ cs, c.Fits F tidy p → c.Fits G t q) : AllFit G t cs q :=
  allFit_iff.mpr fun c hc => himp c hc (allFit_iff.mp h c hc)

lemma fits_conj {cs : List Constraint} : (conj cs).Fits F tidy p ↔
    (tidy → cs.countP isElements ≤ 1) ∧ ∀ c ∈ cs, c.Fits F tidy p := by
  rw [Fits, allFit_iff]

lemma fits_disj {cs : List Constraint} :
    (disj cs).Fits F tidy p ↔ F.unions ∧ ∀ c ∈ cs, c.Fits F tidy p := by
  rw [Fits, allFit_iff]

lemma tidy_conj {cs : List Constraint} :
    (conj cs).Tidy F p ↔ cs.countP isElements ≤ 1 ∧ ∀ c ∈ cs, c.Tidy F p := by
  simp [Tidy, fits_conj]

theorem Fits.mono : ∀ {c : Constraint} {p q : Position}, c.Fits F tidy p → p.Le q →
    c.Fits F tidy q
  | .kind _, _, _, _, _ | .any, _, _, _, _ | .never, _, _, _, _ => trivial
  | .equals _, p, q, h, hpq | .bound _ _, p, q, h, hpq => by
    obtain ⟨rfl, h⟩ := h
    cases q <;> simp_all [Position.Le]
    exact ⟨rfl, h⟩
  | .field name c, p, q, h, hpq => by
    simpa only [Fits, Fragment.below_eq_of_le hpq] using h
  | .elements c, p, q, h, hpq | .elementAt _ c, p, q, h, hpq => by
    simpa only [Fits, hpq.below_eq] using h
  | .length c, p, q, h, _ => h
  | .conj cs, p, q, h, hpq | .disj cs, p, q, h, hpq => ⟨h.1, h.2.imp fun _ _ h => h.mono hpq⟩
  | .neg c, p, q, h, hpq => by
    obtain ⟨hn, rfl, h⟩ := h
    cases q <;> simp_all [Position.Le]
    exact ⟨hn, rfl, h⟩
  | .fix body, p, q, h, hpq => by
    obtain ⟨k, hk, h⟩ := h
    exact ⟨k, hk.mono hpq, h⟩
  | .bvar i, p, q, h, hpq => by
    obtain ⟨rfl, rfl⟩ := h
    cases q <;> simp_all [Position.Le]
    exact ⟨rfl, rfl⟩
  | .ref _, _, _, h, _ | .var _, _, _, h, _ => h.elim

theorem Fits.of_tidy : ∀ {c : Constraint} {p : Position}, c.Tidy F p → c.Fits F false p
  | .kind _, _, _ | .any, _, _ | .never, _, _ => trivial
  | .equals _, _, h => h
  | .bound _ _, _, h => ⟨h.1, by simp⟩
  | .field _ c, _, h | .elements c, _, h | .elementAt _ c, _, h => Fits.of_tidy (c := c) h
  | .length c, _, h | .neg c, _, h => ⟨h.1, h.2.1, Fits.of_tidy h.2.2⟩
  | .conj cs, _, h => ⟨by simp, h.2.imp fun _ _ => Fits.of_tidy⟩
  | .disj cs, _, h => ⟨h.1, h.2.imp fun _ _ => Fits.of_tidy⟩
  | .fix body, _, h => by
    obtain ⟨k, hk, h⟩ := h
    exact ⟨k, hk, Fits.of_tidy h⟩
  | .bvar _, _, h => h
  | .ref _, _, h | .var _, _, h => h.elim

mutual

theorem Fits.isWellFormed : ∀ {c : Constraint} {p : Position}, c.Fits F tidy p → c.isWellFormed
  | .kind _, _, _ | .any, _, _ | .never, _, _ | .bound _ _, _, _ | .bvar _, _, _ => rfl
  | .equals _, _, h => by simpa [Constraint.isWellFormed] using h.2.1
  | .field _ c, _, h | .elements c, _, h | .elementAt _ c, _, h => by
    simpa [Constraint.isWellFormed] using Fits.isWellFormed (c := c) h
  | .length c, _, h | .neg c, _, h => by
    simpa [Constraint.isWellFormed] using Fits.isWellFormed (c := c) h.2.2
  | .conj cs, _, h | .disj cs, _, h => by
    simpa [Constraint.isWellFormed] using AllFit.areWellFormed h.2
  | .fix body, _, h => by
    obtain ⟨k, _, h⟩ := h
    simpa [Constraint.isWellFormed] using Fits.isWellFormed h
  | .ref _, _, h | .var _, _, h => h.elim

theorem AllFit.areWellFormed : ∀ {cs : List Constraint} {p : Position}, AllFit F tidy cs p →
    areWellFormed cs
  | [], _, _ => rfl
  | c :: cs, _, h => by
    simp only [Constraint.areWellFormed, Bool.and_eq_true]
    exact ⟨Fits.isWellFormed h.1, AllFit.areWellFormed h.2⟩

end

theorem Fits.isFixFree : ∀ {c : Constraint}, c.Fits F tidy .plain → c.isFixFree
  | .kind _, _ | .any, _ | .never, _ | .bound _ _, _ | .equals _, _ => rfl
  | .field name c, h => by
    rw [Fits, Fragment.below_plain] at h
    simpa [Constraint.isFixFree] using Fits.isFixFree h
  | .elements c, h | .elementAt _ c, h => by
    simpa [Constraint.isFixFree] using Fits.isFixFree (c := c) h
  | .length c, h | .neg c, h => by
    simpa [Constraint.isFixFree] using Fits.isFixFree (c := c) h.2.2
  | .conj cs, h | .disj cs, h => by
    rw [Constraint.isFixFree, areFixFree_iff]
    exact fun c hc => Fits.isFixFree (allFit_iff.mp h.2 c hc)
  | .fix _, h => by
    obtain ⟨_, hk, _⟩ := h
    exact hk.elim
  | .bvar _, h => nomatch h.2
  | .ref _, h | .var _, h => h.elim

lemma Fits.admits_iff {c : Constraint} {v : Value} (h : c.Fits F tidy .plain) (X : Value → Prop) :
    c.admits v ↔ c.Holds X v :=
  admits_iff_holds h.isFixFree X

lemma isElements_eq_of_same {c d : Constraint} (h : c.same d) : c.isElements = d.isElements := by
  cases c <;> cases d <;> simp_all [same, isElements]

lemma countP_isElements_of_same {cs ds : List Constraint} (h : sameList cs ds) :
    cs.countP isElements = ds.countP isElements := by
  induction cs generalizing ds with
  | nil => cases ds <;> simp_all [sameList]
  | cons c cs ih =>
    cases ds <;> simp only [sameList, Bool.false_eq_true, Bool.and_eq_true] at h
    rw [List.countP_cons, List.countP_cons, ih h.2, isElements_eq_of_same h.1]

lemma Excludes.of_same {c d : Constraint} (hc : c.Excludes) (hw : c.isWellFormed)
    (h : c.same d) : d.Excludes := by
  obtain ⟨x, hx, hn⟩ := hc
  exact ⟨x, hx, fun hd => hn ((holds_congr hw rfl h).mpr hd)⟩

mutual

theorem Fits.of_same : ∀ {c d : Constraint} {p : Position}, c.Fits F tidy p → c.same d →
    d.Fits F tidy p
  | .equals v, d, _, hc, h => by
    cases d <;> simp only [same, Bool.false_eq_true] at h
    exact ⟨hc.1, Value.isWellFormed_of_same hc.2.1 h,
      fun hu => (Value.isNaN_eq_of_same h).symm.trans (hc.2.2.1 hu),
      fun ha => Value.kind_eq_of_same h ▸ hc.2.2.2 ha⟩
  | .bound _ _, d, _, hc, h => by
    cases d <;> simp only [same, Bool.false_eq_true, Bool.and_eq_true, beq_iff_eq] at h
    refine ⟨hc.1, fun _ => ?_⟩
    have he := h.2
    simp only [Number.eq, Bool.and_eq_true, Bool.not_eq_true'] at he
    exact he.1.2
  | .field name c, d, p, hc, h => by
    cases d <;> simp only [same, Bool.false_eq_true, Bool.and_eq_true, beq_iff_eq] at h
    obtain ⟨rfl, h⟩ := h
    exact Fits.of_same (c := c) (p := F.below name p) hc h
  | .elements c, d, p, hc, h => by
    cases d <;> simp only [same, Bool.false_eq_true] at h
    exact Fits.of_same (c := c) (p := p.below) hc h
  | .elementAt _ c, d, p, hc, h => by
    cases d <;> simp only [same, Bool.false_eq_true, Bool.and_eq_true] at h
    exact Fits.of_same (c := c) (p := p.below) hc h.2
  | .length c, d, _, hc, h => by
    cases d <;> simp only [same, Bool.false_eq_true] at h
    exact ⟨hc.1, hc.2.1.imp id (·.of_same hc.2.2.isWellFormed h), Fits.of_same hc.2.2 h⟩
  | .conj cs, d, _, hc, h => by
    cases d <;> simp only [same, Bool.false_eq_true] at h
    exact ⟨fun ht => countP_isElements_of_same h ▸ hc.1 ht, AllFit.of_same hc.2 h⟩
  | .disj cs, d, _, hc, h => by
    cases d <;> simp only [same, Bool.false_eq_true] at h
    exact ⟨hc.1, AllFit.of_same hc.2 h⟩
  | .neg c, d, _, hc, h => by
    cases d <;> simp only [same, Bool.false_eq_true] at h
    exact ⟨hc.1, hc.2.1, Fits.of_same hc.2.2 h⟩
  | .fix b, d, _, hc, h => by
    cases d <;> simp only [same, Bool.false_eq_true] at h
    obtain ⟨k, hk, hb⟩ := hc
    exact ⟨k, hk, Fits.of_same hb h⟩
  | .bvar _, d, _, hc, h => by
    cases d <;> simp only [same, Bool.false_eq_true, beq_iff_eq] at h
    exact h ▸ hc
  | .kind _, d, _, _, h | .any, d, _, _, h | .never, d, _, _, h => by
    cases d <;> simp only [same, Bool.false_eq_true] at h
    trivial
  | .ref _, _, _, hc, _ | .var _, _, _, hc, _ => hc.elim

theorem AllFit.of_same : ∀ {cs ds : List Constraint} {p : Position}, AllFit F tidy cs p →
    sameList cs ds → AllFit F tidy ds p
  | [], ds, _, _, h => by
    cases ds with
    | nil => trivial
    | cons => simp [sameList] at h
  | c :: cs, ds, _, hc, h => by
    cases ds <;> simp only [sameList, Bool.false_eq_true, Bool.and_eq_true] at h
    exact ⟨Fits.of_same hc.1 h.1, AllFit.of_same hc.2 h.2⟩

end

end Fits

end Constraint

def Fragment.core : Fragment where
  negations := true
  unions := false
  lengths := false
  idle := false
  tag _ := false

namespace Constraint

mutual

theorem fits_of_isCore : ∀ {c : Constraint}, c.isCore → c.Fits .core false .plain
  | .kind _, _ | .any, _ | .never, _ => trivial
  | .bound _ _, _ => ⟨rfl, by simp⟩
  | .equals _, h => ⟨rfl, by simpa [isCore] using h, by simp [Fragment.core],
    by simp [Fragment.core]⟩
  | .field _ c, h => by
    rw [Fits, Fragment.below_plain]
    exact fits_of_isCore (by simpa [isCore] using h)
  | .elements c, h | .elementAt _ c, h => fits_of_isCore (c := c) (by simpa [isCore] using h)
  | .neg c, h => ⟨rfl, rfl, fits_of_isCore (by simpa [isCore] using h)⟩
  | .conj cs, h => ⟨by simp, allFit_of_areCore (by simpa [isCore] using h)⟩
  | .length _, h | .disj _, h | .fix _, h | .bvar _, h | .ref _, h | .var _, h => by
    simp [isCore] at h

theorem allFit_of_areCore : ∀ {cs : List Constraint}, areCore cs → AllFit .core false cs .plain
  | [], _ => trivial
  | c :: cs, h => by
    simp only [areCore, Bool.and_eq_true] at h
    exact ⟨fits_of_isCore h.1, allFit_of_areCore h.2⟩

end

end Constraint

end Stagewise
