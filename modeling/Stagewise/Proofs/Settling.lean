import Stagewise.Proofs.Passing

/-! Constraints that settle a value: they mention all that the description of the value says, at
any depth. Conjunctions and normal forms of such constraints settle the value again, unless they
are contradictory, and with what the value fails they are. -/

set_option autoImplicit false

namespace Stagewise

open Association

lemma Number.same_refl (x : Number) : x.same x := by
  cases h : x.isNaN <;> simp [same, eq, h]

lemma Kind.refines_antisymm {k l : Kind} (h : k.refines l) (h' : l.refines k) : k = l := by
  cases k <;> cases l <;> simp_all [refines]

namespace Value

lemma heightFields_le {fields : List (String × Value)} {n : Nat}
    (h : ∀ q ∈ fields, q.2.height ≤ n) : heightFields fields ≤ n := by
  induction fields with
  | nil => exact Nat.zero_le n
  | cons q fields ih =>
    rw [heightFields]
    exact Nat.max_le.mpr ⟨h q List.mem_cons_self, ih fun r hr => h r (List.mem_cons_of_mem _ hr)⟩

lemma heightItems_le {items : List Value} {n : Nat} (h : ∀ v ∈ items, v.height ≤ n) :
    heightItems items ≤ n := by
  induction items with
  | nil => exact Nat.zero_le n
  | cons v items ih =>
    rw [heightItems]
    exact Nat.max_le.mpr ⟨h v List.mem_cons_self, ih fun w hw => h w (List.mem_cons_of_mem _ hw)⟩

lemma same_self_of_find? {fields : List (String × Value)} {name : String} {w : Value}
    (h : (object fields).same (.object fields)) (hw : find? name fields = some w) : w.same w := by
  rw [same, Bool.and_eq_true, sameFields_iff] at h
  obtain ⟨u, hu, hs⟩ := h.2 (name, w) (mem_of_find?_eq_some hw)
  obtain rfl := Option.some.inj (hw.symm.trans hu)
  exact hs

lemma same_self_of_mem {items : List Value} {w : Value} (h : (array items).same (.array items))
    (hw : w ∈ items) : w.same w := by
  rw [same, sameItems_iff, List.forall₂_same] at h
  exact h w hw

end Value

namespace Constraint

/-! ### Members -/

def isMember : Constraint → Bool
  | .conj _ | .any => false
  | _ => true

lemma flattenConj_of_isMember {c : Constraint} (h : c.isMember) (acc : List Constraint) :
    flattenConj acc c = pushNew acc c := by
  cases c <;> simp_all [isMember, flattenConj]

lemma members_of_isMember {c : Constraint} (h : c.isMember) : c.members = [c] := by
  cases c <;> simp_all [isMember, members]

lemma isMember_of_isFlat {c : Constraint} (h : c.isFlat) : c.isMember := by
  cases c <;> simp_all [isFlat, isMember]

lemma isMember_flattenConjList {cs acc : List Constraint} (ha : ∀ d ∈ acc, d.isMember) :
    ∀ d ∈ flattenConjList acc cs, d.isMember :=
  forall_mem_flattenConjList (T := fun _ => True) (by simp) (fun _ h => isMember_of_isFlat h) ha
    (by simp)

mutual

theorem subset_flattenConj : ∀ (c : Constraint) (acc : List Constraint), acc ⊆ flattenConj acc c
  | .conj cs, acc => by
    rw [flattenConj]
    exact subset_flattenConjList cs acc
  | .any, acc => by
    rw [flattenConj]
    exact List.Subset.refl acc
  | .kind _, acc | .equals _, acc | .bound _ _, acc | .field _ _, acc | .elements _, acc
  | .length _, acc | .elementAt _ _, acc | .disj _, acc | .neg _, acc | .fix _, acc
  | .bvar _, acc | .ref _, acc | .var _, acc | .never, acc => by
    rw [flattenConj_of_isMember rfl, pushNew]
    split_ifs
    · exact List.Subset.refl acc
    · exact List.subset_append_left acc _

theorem subset_flattenConjList : ∀ (cs acc : List Constraint), acc ⊆ flattenConjList acc cs
  | [], acc => by
    rw [flattenConjList]
    exact List.Subset.refl acc
  | c :: cs, acc => by
    rw [flattenConjList]
    exact List.Subset.trans (subset_flattenConj c acc) (subset_flattenConjList cs _)

end

/-- Equal or identical. A constraint need not be identical to itself: the comparison of types whose
bounds are no numbers fails. -/
def Alike (c d : Constraint) : Prop := c = d ∨ c.same d

namespace Alike

variable {c d e : Constraint}

lemma refl (c : Constraint) : Alike c c := .inl rfl

lemma trans (h : Alike c d) (k : Alike d e) : Alike c e := by
  rcases h with rfl | h
  · exact k
  · rcases k with rfl | k
    · exact .inr h
    · exact .inr (same_trans h k)

lemma isMember_eq (h : Alike c d) : c.isMember = d.isMember := by
  rcases h with rfl | h
  · rfl
  · cases c <;> cases d <;> simp_all [same, isMember]

lemma kind_inv {k : Kind} (h : Alike c (.kind k)) : c = .kind k := by
  rcases h with rfl | h
  · rfl
  · cases c <;> simp_all [same]

lemma equals_inv {w : Value} (h : Alike c (.equals w)) : ∃ x, c = .equals x := by
  rcases h with rfl | h
  · exact ⟨w, rfl⟩
  · cases c <;> simp_all [same]

lemma field_inv {name : String} (h : Alike c (.field name d)) :
    ∃ e, c = .field name e ∧ Alike e d := by
  rcases h with rfl | h
  · exact ⟨d, rfl, refl d⟩
  · cases c <;> simp only [same, Bool.false_eq_true, Bool.and_eq_true, beq_iff_eq] at h
    obtain ⟨rfl, h⟩ := h
    exact ⟨_, rfl, .inr h⟩

lemma elementAt_inv {i : Nat} (h : Alike c (.elementAt i d)) :
    ∃ e, c = .elementAt i e ∧ Alike e d := by
  rcases h with rfl | h
  · exact ⟨d, rfl, refl d⟩
  · cases c <;> simp only [same, Bool.false_eq_true, Bool.and_eq_true, beq_iff_eq] at h
    obtain ⟨rfl, h⟩ := h
    exact ⟨_, rfl, .inr h⟩

lemma length_inv (h : Alike c (.length d)) : ∃ e, c = .length e ∧ Alike e d := by
  rcases h with rfl | h
  · exact ⟨d, rfl, refl d⟩
  · cases c <;> simp only [same, Bool.false_eq_true] at h
    exact ⟨_, rfl, .inr h⟩

lemma length (h : Alike c d) : Alike (.length c) (.length d) := by
  rcases h with rfl | h
  · exact refl _
  · exact .inr (by simpa only [same] using h)

lemma tidy (h : Alike c d) (hc : c.Tidy .shape .plain) : d.Tidy .shape .plain := by
  rcases h with rfl | h
  · exact hc
  · exact hc.of_same h

lemma holds_iff {X : Value → Prop} {v : Value} (h : Alike c d) (hc : c.isWellFormed)
    (hv : v.isWellFormed) : c.Holds X v ↔ d.Holds X v := by
  rcases h with rfl | h
  · rfl
  · exact holds_congr hc hv h

end Alike

def Mentions (c m : Constraint) : Prop := ∃ d ∈ c.members, Alike d m

lemma members_of_ne_conj {c : Constraint} (hc : ¬ ∃ cs, c = .conj cs) : c.members = [c] := by
  cases c <;> simp_all [members]

lemma mentions_of_alike {c m : Constraint} (h : Alike c m) (hm : m.isMember) : c.Mentions m :=
  ⟨c, by simp [members_of_isMember (h.isMember_eq.trans hm)], h⟩

lemma Mentions.of_alike {c d m : Constraint} (h : c.Mentions m) (hd : Alike d c) :
    d.Mentions m := by
  obtain ⟨e, he, hem⟩ := h
  rcases hd with rfl | hd
  · exact ⟨e, he, hem⟩
  by_cases hc : ∃ cs, c = .conj cs
  · obtain ⟨cs, rfl⟩ := hc
    cases d <;> simp only [same, Bool.false_eq_true] at hd
    next ds =>
      have hall : ∀ {ds cs : List Constraint}, sameList ds cs → e ∈ cs → ∃ d ∈ ds, d.same e := by
        intro ds
        induction ds with
        | nil => intro cs h he; cases cs <;> simp_all [sameList]
        | cons d ds ih =>
          intro cs h he
          cases cs <;> simp only [sameList, Bool.false_eq_true, Bool.and_eq_true] at h
          rcases List.mem_cons.mp he with rfl | he
          · exact ⟨d, List.mem_cons_self, h.1⟩
          · obtain ⟨d', hd', hs⟩ := ih h.2 he
            exact ⟨d', List.mem_cons_of_mem _ hd', hs⟩
      obtain ⟨d', hd', hs⟩ := hall hd he
      exact ⟨d', hd', Alike.trans (.inr hs) hem⟩
  · have hd' : ¬ ∃ cs, d = .conj cs := by
      rintro ⟨ds, rfl⟩
      cases c <;> simp_all [same]
    rw [members_of_ne_conj hc, List.mem_singleton] at he
    subst he
    exact ⟨d, by simp [members_of_ne_conj hd'], Alike.trans (.inr hd) hem⟩

lemma Mentions.trans {c m m' : Constraint} (h : c.Mentions m) (hm : Alike m m') :
    c.Mentions m' := by
  obtain ⟨d, hd, hs⟩ := h
  exact ⟨d, hd, hs.trans hm⟩

lemma exists_alike_mem_flatten {m : Constraint} (hm : m.isMember) {cs : List Constraint}
    (h : ∃ c ∈ cs, c.Mentions m) : ∃ d ∈ flattenConjList [] cs, Alike d m := by
  have hpush {c : Constraint} (hc : Alike c m) (acc : List Constraint) :
      ∃ d ∈ flattenConj acc c, Alike d m := by
    rw [flattenConj_of_isMember (hc.isMember_eq.trans hm), pushNew]
    split_ifs with hany
    · obtain ⟨d, hd, hs⟩ := List.any_eq_true.mp hany
      exact ⟨d, hd, Alike.trans (.inr hs) hc⟩
    · exact ⟨c, by simp, hc⟩
  have hlist {cs : List Constraint} (acc : List Constraint)
      (h : ∃ c ∈ cs, ∀ acc, ∃ d ∈ flattenConj acc c, Alike d m) :
      ∃ d ∈ flattenConjList acc cs, Alike d m := by
    induction cs generalizing acc with
    | nil => simp at h
    | cons c cs ih =>
      obtain ⟨e, he, hflat⟩ := h
      rw [flattenConjList]
      rcases List.mem_cons.mp he with rfl | he
      · obtain ⟨d, hd, hs⟩ := hflat acc
        exact ⟨d, subset_flattenConjList cs _ hd, hs⟩
      · exact ih _ ⟨e, he, hflat⟩
  obtain ⟨c, hc, e, he, hem⟩ := h
  refine hlist [] ⟨c, hc, fun acc => ?_⟩
  by_cases hconj : ∃ ds, c = .conj ds
  · obtain ⟨ds, rfl⟩ := hconj
    rw [flattenConj]
    exact hlist acc ⟨e, he, fun acc => hpush hem acc⟩
  · rw [members_of_ne_conj hconj, List.mem_singleton] at he
    exact hpush (he ▸ hem) acc

lemma mentions_finishConj {m : Constraint} (hm : m.isMember) {cs : List Constraint}
    (h : ∃ c ∈ cs, Alike c m) : (finishConj cs).Mentions m := by
  obtain ⟨c, hc, hs⟩ := h
  obtain ⟨d, hd, hds⟩ : ∃ d ∈ dedup (sort cs), Alike d m := by
    rcases exists_same_mem_dedup_sort hc with hd | ⟨d, hd, hdc⟩
    · exact ⟨c, hd, hs⟩
    · exact ⟨d, hd, Alike.trans (.inr hdc) hs⟩
  unfold finishConj
  split
  · next he => simp [he] at hd
  · next e he =>
    rw [he, List.mem_singleton] at hd
    exact mentions_of_alike (hd ▸ hds) hm
  · exact ⟨d, hd, hds⟩

section Mentioned

variable {X : Value → Prop} {v : Value} {c m : Constraint}

lemma tidy_of_mentions (hc : c.Tidy .shape .plain) (hm : c.Mentions m) :
    m.Tidy .shape .plain := by
  obtain ⟨d, hd, hs⟩ := hm
  refine hs.tidy ?_
  cases c with
  | conj cs => exact (tidy_conj.mp hc).2 d hd
  | _ => exact List.mem_singleton.mp hd ▸ hc

lemma holds_of_mentions (hc : c.Tidy .shape .plain) (hv : v.isWellFormed) (h : c.Holds X v)
    (hm : c.Mentions m) : m.Holds X v := by
  obtain ⟨d, hd, hs⟩ := hm
  have hboth : d.Tidy .shape .plain ∧ d.Holds X v := by
    cases c with
    | conj cs => exact ⟨(tidy_conj.mp hc).2 d hd, holds_conj.mp h d hd⟩
    | _ =>
      obtain rfl := List.mem_singleton.mp hd
      exact ⟨hc, h⟩
  exact (hs.holds_iff hboth.1.isWellFormed hv).mp hboth.2

lemma holds_of_mentions_field {fields : List (String × Value)} {name : String} {w : Value}
    (hc : c.Tidy .shape .plain) (hv : (Value.object fields).isWellFormed)
    (h : c.Holds X (.object fields)) (hm : c.Mentions (.field name m))
    (hw : find? name fields = some w) : m.Holds X w := by
  obtain ⟨_, _, he, hf, hh⟩ := holds_of_mentions hc hv h hm
  obtain rfl := Value.object.inj he
  exact Option.some.inj (hf.symm.trans hw) ▸ hh

lemma holds_of_mentions_elementAt {items : List Value} {i : Nat} {w : Value}
    (hc : c.Tidy .shape .plain) (hv : (Value.array items).isWellFormed)
    (h : c.Holds X (.array items)) (hm : c.Mentions (.elementAt i m))
    (hw : items[i]? = some w) : m.Holds X w := by
  obtain ⟨_, _, he, hf, hh⟩ := holds_of_mentions hc hv h hm
  obtain rfl := Value.array.inj he
  exact Option.some.inj (hf.symm.trans hw) ▸ hh

end Mentioned

/-! ### Constraints that settle a value -/

/-- A constraint that mentions all that describes a value: the value itself if it has no parts, its
kind and constraints that settle its parts otherwise. -/
inductive Settles : Value → Constraint → Prop
  | atom {v : Value} {c : Constraint} (hv : v.kind.refines .object = false)
      (h : c.Mentions (.equals v)) : Settles v c
  | function {v : Value} {c : Constraint} (hv : v.kind = .function)
      (h : c.Mentions (.kind .function)) : Settles v c
  | object {fields : List (String × Value)} {c : Constraint} (part : String → Constraint)
      (hk : c.Mentions (.kind .object))
      (hpart : ∀ {name : String} {w : Value}, find? name fields = some w →
        c.Mentions (.field name (part name)))
      (hrest : ∀ {name : String} {w : Value}, find? name fields = some w →
        Settles w (part name)) : Settles (.object fields) c
  | array {items : List Value} {c : Constraint} (part : Nat → Constraint)
      (hk : c.Mentions (.kind .array))
      (hlen : c.Mentions (.length (.equals (.ofNat items.length))))
      (hpart : ∀ {i : Nat} {w : Value}, items[i]? = some w → c.Mentions (.elementAt i (part i)))
      (hrest : ∀ {i : Nat} {w : Value}, items[i]? = some w → Settles w (part i)) :
      Settles (.array items) c

namespace Settles

variable {X : Value → Prop} {v : Value} {c d : Constraint}

lemma of_mentions (hs : Settles v c) (h : ∀ m, m.isMember → c.Mentions m → d.Mentions m) :
    Settles v d := by
  cases hs with
  | atom hv hm => exact .atom hv (h _ rfl hm)
  | function hv hm => exact .function hv (h _ rfl hm)
  | object part hk hpart hrest => exact .object part (h _ rfl hk) (fun hf => h _ rfl (hpart hf)) hrest
  | array part hk hlen hpart hrest =>
    exact .array part (h _ rfl hk) (h _ rfl hlen) (fun hi => h _ rfl (hpart hi)) hrest

lemma of_alike (hs : Settles v c) (h : Alike d c) : Settles v d :=
  hs.of_mentions fun _ _ hm => hm.of_alike h

lemma ofFields {fields : List (String × Value)} (hk : c.Mentions (.kind .object))
    (h : ∀ name w, find? name fields = some w →
      ∃ d, c.Mentions (.field name d) ∧ Settles w d) : Settles (.object fields) c := by
  have hall : ∀ name, ∃ d, ∀ w, find? name fields = some w →
      c.Mentions (.field name d) ∧ Settles w d := fun name => by
    cases hf : find? name fields with
    | none => exact ⟨.any, fun w hw => nomatch hw⟩
    | some w =>
      obtain ⟨d, hd⟩ := h name w hf
      exact ⟨d, fun w' hw => Option.some.inj hw ▸ hd⟩
  choose part hpart using hall
  exact .object part hk (fun hf => (hpart _ _ hf).1) fun hf => (hpart _ _ hf).2

lemma ofItems {items : List Value} (hk : c.Mentions (.kind .array))
    (hlen : c.Mentions (.length (.equals (.ofNat items.length))))
    (h : ∀ i w, items[i]? = some w → ∃ d, c.Mentions (.elementAt i d) ∧ Settles w d) :
    Settles (.array items) c := by
  have hall : ∀ i, ∃ d, ∀ w, items[i]? = some w → c.Mentions (.elementAt i d) ∧ Settles w d :=
    fun i => by
      cases hi : items[i]? with
      | none => exact ⟨.any, fun w hw => nomatch hw⟩
      | some w =>
        obtain ⟨d, hd⟩ := h i w hi
        exact ⟨d, fun w' hw => Option.some.inj hw ▸ hd⟩
  choose part hpart using hall
  exact .array part hk hlen (fun hi => (hpart _ _ hi).1) fun hi => (hpart _ _ hi).2

end Settles

section Conjunctions

variable {X : Value → Prop} {v : Value} {n : Nat} {unroll : Bool} {cs : List Constraint}

lemma not_never_of_holds {c : Constraint} (h : c.Holds X v) : c.isNever = false := by
  cases c <;> first | rfl | exact absurd h id

lemma covers_of_atomic {w : Value} (hw : w.isWellFormed) (ha : w.kind.refines .object = false) :
    Fragment.shape.Covers w := by
  refine ⟨hw, fun _ => ?_⟩
  cases w <;> simp_all [Value.kind, Kind.refines, Value.isShort]

lemma conjunction_literal (hcs : ∀ c ∈ cs, c.Tidy .shape .plain) {w : Value}
    (h : ∃ c ∈ cs, c.Mentions (.equals w))
    (hne : (conjunction (n + 1) unroll cs).isNever = false) :
    ∃ x, conjunction (n + 1) unroll cs = .equals x ∧ Alike (.equals x) (.equals w) := by
  obtain ⟨e, he, hes⟩ := exists_alike_mem_flatten rfl h
  obtain ⟨y, rfl⟩ := hes.equals_inv
  have hspec := conjoins_conjunction (n + 1) unroll .plain cs hcs
  obtain ⟨_, hcases⟩ := condenses_conjunction n unroll hcs hne
  generalize conjunction (n + 1) unroll cs = r at hne hspec hcases
  rcases hcases with ⟨hone, rfl⟩ | hcases
  · have hflat : flattenConjList [] cs = [.equals y] := by
      match hf : flattenConjList [] cs with
      | [] => simp [hf] at he
      | [d] =>
        rw [hf, List.mem_singleton] at he
        rw [he]
      | d :: d' :: ds => simp [hf] at hone
    rw [hflat, finishConj_singleton]
    exact ⟨y, rfl, hes⟩
  · cases hcases with
    | never => simp [isNever] at hne
    | @literal x hx =>
      obtain ⟨_, hwf, _, hatom⟩ := hspec.tidy
      have hcov := covers_of_atomic hwf (hatom rfl)
      have hall := (hspec.holds (fun _ => True) x hcov).mp hx
      have hy := (forall_flatten (isConjunctive_holds (fun _ => True) hcov) hcs).mpr hall _ he
      have hxy : x.same y := hy
      exact ⟨x, rfl, Alike.trans (.inr (by simpa only [same] using hxy)) hes⟩
    | members _ _ hlit _ _ => exact absurd he (hlit y)

lemma conjoin_literal (hcs : ∀ c ∈ cs, c.Tidy .shape .plain) {w : Value}
    (h : ∃ c ∈ cs, Alike c (.equals w))
    (hne : (conjoin (conjunction (n + 1) unroll) cs).isNever = false) :
    ∃ x, conjoin (conjunction (n + 1) unroll) cs = .equals x ∧
      Alike (.equals x) (.equals w) := by
  obtain ⟨c, hc, hs⟩ := h
  match cs with
  | [] => simp at hc
  | [d] =>
    obtain rfl := List.mem_singleton.mp hc
    obtain ⟨x, rfl⟩ := hs.equals_inv
    exact ⟨x, rfl, hs⟩
  | d :: d' :: ds => exact conjunction_literal hcs ⟨c, hc, mentions_of_alike hs rfl⟩ hne

lemma Merges.exists_kind? {conj conjPlain : List Constraint → Constraint}
    {flat ms : List Constraint} (hm : Merges conj conjPlain flat ms) {d : Constraint}
    (hd : d ∈ flat) : ∃ e ∈ ms, e.kind? = d.kind? := by
  by_cases hw : d.isWhole
  · exact ⟨d, hm.whole d hd hw, rfl⟩
  cases d <;> simp only [isWhole, not_true_eq_false] at hw
  case field => exact ⟨_, (hm.field hd).2, rfl⟩
  case elements =>
    obtain ⟨e, he⟩ := hm.elements hd
    exact ⟨_, he, rfl⟩
  case elementAt =>
    obtain ⟨extra, _, hitem⟩ := hm.item
    exact ⟨_, (hitem hd).2, rfl⟩
  case length => exact ⟨_, (hm.length hd).2, rfl⟩

lemma passes_of_parts (hcs : ∀ c ∈ cs, c.Tidy .shape .plain)
    (hv : v.kind.refines .object) (hk : ∃ c ∈ cs, c.Mentions (.kind v.kind))
    (hne : (conjunction (n + 1) unroll cs).isNever = false)
    (hparts : ∀ ms, Merges (conjunction n unroll) (conjunction n false) (flattenConjList [] cs) ms →
      (∀ {fields name w d}, v = .object fields → find? name fields = some w →
        .field name d ∈ flattenConjList [] cs → d.Passes w) ∧
      (∀ {items i d}, v = .array items → .elementAt i d ∈ flattenConjList [] cs →
        ∃ w, items[i]? = some w ∧ d.Passes w) ∧
      ∀ {items d}, v = .array items → .length d ∈ flattenConjList [] cs →
        d.Passes (.ofNat items.length)) :
    ∀ c ∈ cs, c.Passes v := by
  obtain ⟨e, he, hes⟩ := exists_alike_mem_flatten rfl hk
  obtain rfl := hes.kind_inv
  refine (forall_flatten (isConjunctive_passes .shape .plain v) hcs).mp ?_
  have hspec := conjoins_conjunction (n + 1) unroll .plain cs hcs
  obtain ⟨hnever, hcases⟩ := condenses_conjunction n unroll hcs hne
  have hmember : ∀ d ∈ flattenConjList [] cs, d.isMember := isMember_flattenConjList (by simp)
  have hself : (kind v.kind).Passes v :=
    Kind.compatible_of_refines (Kind.refines_refl _) (Kind.refines_refl _)
  generalize conjunction (n + 1) unroll cs = r at hne hspec hcases
  rcases hcases with ⟨hone, rfl⟩ | hcases
  · match hf : flattenConjList [] cs with
    | [] => simp
    | [d] =>
      rw [hf, List.mem_singleton] at he
      simpa [← he] using hself
    | d :: d' :: ds => simp [hf] at hone
  · cases hcases with
    | never => simp [isNever] at hne
    | @literal x hx =>
      obtain ⟨_, hwf, _, hatom⟩ := hspec.tidy
      have hcov := covers_of_atomic hwf (hatom rfl)
      have hall := (hspec.holds (fun _ => True) x hcov).mp hx
      have hkx := (forall_flatten (isConjunctive_holds (fun _ => True) hcov) hcs).mpr hall _ he
      exact absurd (Kind.refines_trans hkx hv) (by simp [hatom rfl])
    | @members ms _ common hm hkind hlit _ _ =>
      obtain ⟨hfield, hitem, hlength⟩ := hparts ms hm
      have hcompat {d : Constraint} {k : Kind} (hd : d ∈ flattenConjList [] cs)
          (hdk : d.kind? = some k) : v.kind.compatible k := by
        obtain ⟨e', he', hek⟩ := hm.exists_kind? hd
        obtain ⟨j, hj, hjk⟩ := (commonKind_refines hkind).2 _ he' k (hek.trans hdk)
        obtain ⟨j', hj', hjv⟩ := (commonKind_refines hkind).2 _ (hm.whole _ he rfl) v.kind rfl
        obtain rfl := Option.some.inj (hj.symm.trans hj')
        exact Kind.compatible_of_refines hjv hjk
      intro d hd
      cases d with
      | never => exact absurd hd hnever
      | equals w => exact absurd hd (hlit w)
      | conj | any => exact absurd (hmember _ hd) (by simp [isMember])
      | kind k | elements => exact hcompat hd rfl
      | bound r x =>
        have hb := hcompat hd rfl
        simp [Kind.not_compatible_number hv] at hb
      | field name d => exact ⟨hcompat hd rfl, fun _ _ he hf => hfield he hf hd⟩
      | elementAt i d => exact ⟨hcompat hd rfl, fun _ he => hitem he hd⟩
      | length d => exact ⟨hcompat hd rfl, fun _ he => hlength he hd⟩
      | disj | neg | fix | bvar | ref | var => trivial

lemma passes_group (hcs : ∀ c ∈ cs, c.Tidy .shape .plain) (hv : Fragment.shape.Covers v)
    {d part : Constraint} (hd : d ∈ cs) (hs : Alike d part) (hpart : part.Holds X v)
    (hne : (conjoin (conjunction n unroll) cs).isNever = false)
    (h : (conjunction n unroll cs).isNever = false → ∀ c ∈ cs, c.Passes v) :
    ∀ c ∈ cs, c.Passes v := by
  match cs with
  | [] => simp
  | [c] =>
    obtain rfl := List.mem_singleton.mp hd
    have hdv := (hs.holds_iff (hcs d hd).isWellFormed hv.1).mpr hpart
    simpa using passes_of_holds hdv
  | c :: c' :: cs => exact h hne

lemma Merges.lengths {flat ms : List Constraint}
    (hm : Merges (conjunction (n + 1) unroll) (conjunction (n + 1) false) flat ms)
    (hflat : ∀ c ∈ flat, c.Tidy .shape .plain) {l : Constraint} {count : Nat}
    (hl : .length l ∈ flat) (hs : Alike l (.equals (.ofNat count)))
    (hcount : count < Number.exactCount) :
    (∀ d, .length d ∈ flat → d.Holds X (.ofNat count)) ∧
      ∀ i d, .elementAt i d ∈ flat → i < count := by
  have hlengths := tidy_statedLengths hflat
  have hspec := (conjoins_conjunction (n + 1) unroll).conjoin .plain _ hlengths
  obtain ⟨x, hx, hxc⟩ := conjoin_literal hlengths ⟨l, mem_statedLengths.mpr hl, hs⟩ (hm.length hl).1
  rw [hx] at hspec
  have hself : (equals (.ofNat count)).Holds X (.ofNat count) := Number.same_refl _
  have hcx := (hxc.holds_iff hspec.tidy.isWellFormed rfl).mpr hself
  have hcov := Fragment.shape.covers_number (.ofNat count)
  refine ⟨fun d hd => (hspec.holds X _ hcov).mp hcx d (mem_statedLengths.mpr hd),
    fun i d hd => ?_⟩
  obtain ⟨last, hle, hne⟩ := hm.reaches hd hl
  rw [hx] at hne
  have htidy : ∀ c ∈ [Constraint.equals x, .kind .number, .bound .gt (Number.ofNat last)],
      c.Tidy .shape .plain := by
    simpa [Tidy, Fits, Number.isNaN_ofNat] using hspec.tidy
  obtain ⟨y, hy, hyx⟩ := conjunction_literal htidy ⟨_, List.mem_cons_self,
    mentions_of_alike hxc rfl⟩ hne
  have hreach := conjoins_conjunction (n + 1) false .plain _ htidy
  rw [hy] at hreach
  have hcy := (hyx.holds_iff hreach.tidy.isWellFormed rfl).mpr hself
  have hgt : (bound .gt (Number.ofNat last)).Holds X (.ofNat count) :=
    (hreach.holds X _ hcov).mp hcy _ (by simp)
  obtain ⟨z, hz, hlt⟩ := hgt
  obtain rfl := Value.number.inj hz
  by_contra hi
  have hfalse := Number.not_ofNat_lt_ofNat (show count ≤ last by omega) hcount
  exact absurd hlt (by simp [Comparison.holds, hfalse])

theorem Settles.passes {c : Constraint} (hs : Settles v c) {n : Nat} {unroll : Bool}
    {cs : List Constraint} (hc : c.Tidy .shape .plain) (hcv : c.Holds X v)
    (hv : Fragment.shape.Covers v) (hn : v.height < n) (hcs : ∀ c ∈ cs, c.Tidy .shape .plain)
    (hsub : ∀ m, m.isMember → c.Mentions m → ∃ d ∈ cs, d.Mentions m)
    (hne : (conjunction n unroll cs).isNever = false) : ∀ d ∈ cs, d.Passes v := by
  induction hs generalizing n unroll cs with
  | @atom v c hatom h =>
    obtain ⟨k, rfl⟩ : ∃ k, n = k + 1 := ⟨n - 1, by omega⟩
    have hspec := conjoins_conjunction (k + 1) unroll .plain cs hcs
    obtain ⟨x, hx, hxv⟩ := conjunction_literal hcs (hsub _ rfl h) hne
    rw [hx] at hspec
    have hvx := (hxv.holds_iff hspec.tidy.isWellFormed hv.1).mpr (holds_of_mentions hc hv.1 hcv h)
    exact fun d hd => passes_of_holds ((hspec.holds X v hv).mp hvx d hd)
  | @function v c hkind h =>
    obtain ⟨k, rfl⟩ : ∃ k, n = k + 1 := ⟨n - 1, by omega⟩
    refine passes_of_parts hcs (by rw [hkind]; rfl) (hkind ▸ hsub _ rfl h) hne
      fun ms _ => ⟨?_, ?_, ?_⟩
    · rintro _ _ _ _ rfl
      simp [Value.kind] at hkind
    · rintro _ _ _ rfl
      simp [Value.kind] at hkind
    · rintro _ _ rfl
      simp [Value.kind] at hkind
  | @object fields c part hk hpart hrest ih =>
    obtain ⟨k, rfl⟩ : ∃ k, n = k + 1 := ⟨n - 1, by omega⟩
    have hflat : ∀ c ∈ flattenConjList [] cs, c.Tidy .shape .plain :=
      flattenConjList_tidy (by simp) hcs
    refine passes_of_parts hcs rfl (hsub _ rfl hk) hne fun ms hm => ⟨?_, ?_, ?_⟩
    · intro _ name w d he hw hd
      obtain rfl := Value.object.inj he
      obtain ⟨_, he, hen⟩ := exists_alike_mem_flatten rfl (hsub _ rfl (hpart hw))
      obtain ⟨e, rfl, hes⟩ := hen.field_inv
      have hwv := holds_of_mentions_field hc hv.1 hcv (hpart hw) hw
      have hht : w.height < k := by
        have := Value.height_lt_of_find? hw
        omega
      have hcw := hv.find? hw
      have hgroup := tidy_fieldStatements hflat name
      have heg : e ∈ fieldStatements name (flattenConjList [] cs) := mem_fieldStatements.mpr he
      refine passes_group hgroup hcw heg hes hwv (hm.field hd).1 (fun hne' => ?_) d
        (mem_fieldStatements.mpr hd)
      have htidy : (part name).Tidy .shape .plain := by
        simpa [Fits] using tidy_of_mentions hc (hpart hw)
      exact ih hw htidy hwv hcw hht hgroup (fun m _ hm => ⟨e, heg, hm.of_alike hes⟩) hne'
    · intro _ _ _ he
      simp at he
    · intro _ _ he
      simp at he
  | @array items c part hk hlen hpart hrest ih =>
    obtain ⟨k, rfl⟩ : ∃ k, n = k + 2 := ⟨n - 2, by simp only [Value.height] at hn; omega⟩
    have hflat : ∀ c ∈ flattenConjList [] cs, c.Tidy .shape .plain :=
      flattenConjList_tidy (by simp) hcs
    obtain ⟨_, hl, hln⟩ := exists_alike_mem_flatten rfl (hsub _ rfl hlen)
    obtain ⟨l, rfl, hls⟩ := hln.length_inv
    refine passes_of_parts hcs rfl (hsub _ rfl hk) hne fun ms hm => ?_
    obtain ⟨hlengths, hindex⟩ := hm.lengths (X := X) hflat hl hls (hv.length_lt rfl)
    refine ⟨?_, ?_, ?_⟩
    · intro _ _ _ _ he
      simp at he
    · intro _ i d he hd
      obtain rfl := Value.array.inj he
      obtain ⟨w, hw⟩ : ∃ w, items[i]? = some w := ⟨_, List.getElem?_eq_getElem (hindex i d hd)⟩
      refine ⟨w, hw, ?_⟩
      obtain ⟨_, he, hen⟩ := exists_alike_mem_flatten rfl (hsub _ rfl (hpart hw))
      obtain ⟨e, rfl, hes⟩ := hen.elementAt_inv
      have hwv := holds_of_mentions_elementAt hc hv.1 hcv (hpart hw) hw
      have hht : w.height < k + 1 := by
        have := Value.height_lt_of_mem (List.mem_of_getElem? hw)
        omega
      have hcw := hv.getElem? hw
      obtain ⟨extra, hextra, hitem⟩ := hm.item
      have hgroup := List.forall_mem_append.mpr ⟨tidy_itemStatements hflat i, hextra⟩
      have heg := List.mem_append_left extra (mem_itemStatements.mpr he)
      refine passes_group hgroup hcw heg hes hwv (hitem hd).1 (fun hne' => ?_) d
        (List.mem_append_left _ (mem_itemStatements.mpr hd))
      have htidy : (Constraint.elementAt i (part i)).Tidy .shape .plain :=
        tidy_of_mentions hc (hpart hw)
      exact ih hw htidy hwv hcw hht hgroup (fun m _ hm => ⟨e, heg, hm.of_alike hes⟩) hne'
    · intro _ d he hd
      obtain rfl := Value.array.inj he
      exact passes_of_holds (hlengths d hd)

lemma mentions_of_holds (hcs : ∀ c ∈ cs, c.Tidy .shape .plain) (hv : Fragment.shape.Covers v)
    (hobj : v.kind.refines .object) (hk : ∃ c ∈ cs, c.Mentions (.kind v.kind))
    (h : (conjunction (n + 1) unroll cs).Holds X v) :
    (∀ m, m.isMember → (∃ c ∈ cs, c.Mentions m) → (conjunction (n + 1) unroll cs).Mentions m) ∨
    ∃ ms, Merges (conjunction n unroll) (conjunction n false) (flattenConjList [] cs) ms ∧
      (conjunction (n + 1) unroll cs).Mentions (.kind v.kind) ∧
      ∀ m ∈ ms, m.isKind = false → m.isMember → (conjunction (n + 1) unroll cs).Mentions m := by
  obtain ⟨_, he, hek⟩ := exists_alike_mem_flatten rfl hk
  obtain rfl := hek.kind_inv
  have hspec := conjoins_conjunction (n + 1) unroll .plain cs hcs
  obtain ⟨_, hcases⟩ := condenses_conjunction n unroll hcs (not_never_of_holds h)
  generalize conjunction (n + 1) unroll cs = r at h hspec hcases
  rcases hcases with ⟨_, rfl⟩ | hcases
  · exact .inl fun m hm hc => mentions_finishConj hm (exists_alike_mem_flatten hm hc)
  · cases hcases with
    | never => exact absurd h id
    | @literal x _ =>
      have hatom := hspec.tidy.2.2.2 rfl
      rw [← Value.kind_eq_of_same h, hobj] at hatom
      exact absurd hatom (by simp)
    | @members ms ds common hm hkind _ hds hnum =>
      obtain ⟨k, rfl, hkv⟩ := (commonKind_refines hkind).2 _ (hm.whole _ he rfl) v.kind rfl
      have hlast : (finishConj (ds ++ [.kind k])).Mentions (.kind k) :=
        mentions_finishConj rfl ⟨_, by simp, .refl _⟩
      have hvk : v.kind.refines k := holds_of_mentions hspec.tidy hv.1 h hlast
      obtain rfl : k = v.kind := Kind.refines_antisymm hkv hvk
      have hne : v.kind ≠ .number := by
        intro hn
        simp [hn, Kind.refines] at hobj
      refine .inr ⟨ms, hm, hlast, fun m hms hmk hmem => mentions_finishConj hmem ⟨m, ?_, .refl m⟩⟩
      rw [hnum (by simpa using hne)]
      simp [hms, hmk]

lemma settles_group {d part : Constraint} (hd : d ∈ cs) (hs : Alike d part)
    (hpart : Settles v part) (hv : (conjoin (conjunction n unroll) cs).Holds X v)
    (h : (conjunction n unroll cs).Holds X v → Settles v (conjunction n unroll cs)) :
    Settles v (conjoin (conjunction n unroll) cs) := by
  match cs with
  | [] => simp at hd
  | [c] =>
    obtain rfl := List.mem_singleton.mp hd
    exact hpart.of_alike hs
  | c :: c' :: cs => exact h hv

theorem Settles.conjunction {c : Constraint} (hs : Settles v c) {n : Nat} {unroll : Bool}
    {cs : List Constraint} (hv : Fragment.shape.Covers v) (hn : v.height < n)
    (hcs : ∀ c ∈ cs, c.Tidy .shape .plain)
    (hsub : ∀ m, m.isMember → c.Mentions m → ∃ d ∈ cs, d.Mentions m)
    (h : (conjunction n unroll cs).Holds X v) : Settles v (conjunction n unroll cs) := by
  induction hs generalizing n unroll cs with
  | @atom v c hatom hm =>
    obtain ⟨k, rfl⟩ : ∃ k, n = k + 1 := ⟨n - 1, by omega⟩
    obtain ⟨x, hx, hxv⟩ := conjunction_literal hcs (hsub _ rfl hm) (not_never_of_holds h)
    rw [hx]
    exact .atom hatom (mentions_of_alike hxv rfl)
  | @function v c hfun hm =>
    obtain ⟨k, rfl⟩ : ∃ k, n = k + 1 := ⟨n - 1, by omega⟩
    have hobj : v.kind.refines .object := by rw [hfun]; rfl
    rcases mentions_of_holds hcs hv hobj (hfun ▸ hsub _ rfl hm) h with hall | ⟨_, _, hkind, _⟩
    · exact .function hfun (hall _ rfl (hsub _ rfl hm))
    · exact .function hfun (hfun ▸ hkind)
  | @object fields c part hk hpart hrest ih =>
    obtain ⟨k, rfl⟩ : ∃ k, n = k + 1 := ⟨n - 1, by omega⟩
    have hflat : ∀ c ∈ flattenConjList [] cs, c.Tidy .shape .plain :=
      flattenConjList_tidy (by simp) hcs
    have hspec := conjoins_conjunction (k + 1) unroll .plain cs hcs
    rcases mentions_of_holds hcs hv rfl (hsub _ rfl hk) h with hall | ⟨ms, hm, hkind, hparts⟩
    · exact .object part (hall _ rfl (hsub _ rfl hk)) (fun hf => hall _ rfl (hsub _ rfl (hpart hf)))
        hrest
    refine Settles.ofFields hkind fun name w hw => ?_
    obtain ⟨_, he, hen⟩ := exists_alike_mem_flatten rfl (hsub _ rfl (hpart hw))
    obtain ⟨e, rfl, hes⟩ := hen.field_inv
    have hmention := hparts _ (hm.field he).2 rfl rfl
    have hht : w.height < k := by
      have := Value.height_lt_of_find? hw
      omega
    have heg : e ∈ fieldStatements name (flattenConjList [] cs) := mem_fieldStatements.mpr he
    have hgroup := tidy_fieldStatements hflat name
    have hwv := holds_of_mentions_field hspec.tidy hv.1 h hmention hw
    refine ⟨_, hmention, settles_group heg hes (hrest hw) hwv fun hwv => ?_⟩
    exact ih hw (hv.find? hw) hht hgroup (fun m _ hm => ⟨e, heg, hm.of_alike hes⟩) hwv
  | @array items c part hk hlen hpart hrest ih =>
    obtain ⟨k, rfl⟩ : ∃ k, n = k + 2 := ⟨n - 2, by simp only [Value.height] at hn; omega⟩
    have hspec := conjoins_conjunction (k + 2) unroll .plain cs hcs
    have hflat : ∀ c ∈ flattenConjList [] cs, c.Tidy .shape .plain :=
      flattenConjList_tidy (by simp) hcs
    rcases mentions_of_holds hcs hv rfl (hsub _ rfl hk) h with hall | ⟨ms, hm, hkind, hparts⟩
    · exact .array part (hall _ rfl (hsub _ rfl hk)) (hall _ rfl (hsub _ rfl hlen))
        (fun hi => hall _ rfl (hsub _ rfl (hpart hi))) hrest
    obtain ⟨_, hl, hln⟩ := exists_alike_mem_flatten rfl (hsub _ rfl hlen)
    obtain ⟨l, rfl, hls⟩ := hln.length_inv
    have hlength : (Constraint.conjunction (k + 2) unroll cs).Mentions
        (.length (.equals (.ofNat items.length))) := by
      obtain ⟨x, hx, hxl⟩ := conjoin_literal (tidy_statedLengths hflat)
        ⟨l, mem_statedLengths.mpr hl, hls⟩ (hm.length hl).1
      have hmention := hparts _ (hm.length hl).2 rfl rfl
      rw [hx] at hmention
      exact hmention.trans hxl.length
    refine Settles.ofItems hkind hlength fun i w hw => ?_
    obtain ⟨_, he, hen⟩ := exists_alike_mem_flatten rfl (hsub _ rfl (hpart hw))
    obtain ⟨e, rfl, hes⟩ := hen.elementAt_inv
    obtain ⟨extra, hextra, hitem⟩ := hm.item
    have hmention := hparts _ (hitem he).2 rfl rfl
    have hht : w.height < k + 1 := by
      have := Value.height_lt_of_mem (List.mem_of_getElem? hw)
      omega
    have heg := List.mem_append_left extra (mem_itemStatements.mpr he)
    have hgroup := List.forall_mem_append.mpr ⟨tidy_itemStatements hflat i, hextra⟩
    have hwv := holds_of_mentions_elementAt hspec.tidy hv.1 h hmention hw
    refine ⟨_, hmention, settles_group heg hes (hrest hw) hwv fun hwv => ?_⟩
    exact ih hw (hv.getElem? hw) hht hgroup (fun m _ hm => ⟨e, heg, hm.of_alike hes⟩) hwv

end Conjunctions

section Normalization

variable {X : Value → Prop} {v : Value} {c : Constraint}

lemma size_le_of_mem_members {d : Constraint} (h : d ∈ c.members) : d.size ≤ c.size := by
  by_cases hc : ∃ cs, c = .conj cs
  · obtain ⟨cs, rfl⟩ := hc
    have hle : d.size ≤ sizeList cs := size_le_sizeList h
    rw [size]
    omega
  · rw [members_of_ne_conj hc, List.mem_singleton] at h
    exact h ▸ Nat.le_refl d.size

lemma Settles.height_le_size (hs : Settles v c) (hv : v.isWellFormed) {d : Constraint}
    (hd : Alike d c) : v.height ≤ d.size := by
  induction hs generalizing d with
  | @atom v c hatom _ => cases v <;> simp_all [Value.height, Value.kind, Kind.refines]
  | @function v c hkind _ => cases v <;> simp_all [Value.height, Value.kind]
  | @object fields c part hk hpart hrest ih =>
    rw [Value.isWellFormed, Bool.and_eq_true, decide_eq_true_eq,
      Value.areWellFormedFields_iff] at hv
    have hle : ∀ q ∈ fields, q.2.height ≤ d.size - 1 := fun q hq => by
      have hw := find?_eq_some_of_mem hv.1 hq
      obtain ⟨_, he, hen⟩ := (hpart hw).of_alike hd
      obtain ⟨e, rfl, hes⟩ := hen.field_inv
      have hsize := size_le_of_mem_members he
      have := ih hw (hv.2 q hq) hes
      rw [size] at hsize
      omega
    have := Value.heightFields_le hle
    have := size_pos d
    rw [Value.height]
    omega
  | @array items c part hk hlen hpart hrest ih =>
    rw [Value.isWellFormed, Value.areWellFormed_iff] at hv
    have hle : ∀ w ∈ items, w.height ≤ d.size - 1 := fun w hw => by
      obtain ⟨i, hi⟩ := List.mem_iff_getElem?.mp hw
      obtain ⟨_, he, hen⟩ := (hpart hi).of_alike hd
      obtain ⟨e, rfl, hes⟩ := hen.elementAt_inv
      have hsize := size_le_of_mem_members he
      have := ih hi (hv w hw) hes
      rw [size] at hsize
      omega
    have := Value.heightItems_le hle
    have := size_pos d
    rw [Value.height]
    omega

lemma Settles.normalize_of_ne_conj (hs : Settles v c) (hc : ¬ ∃ cs, c = .conj cs) (n : Nat) :
    normalize n c = c := by
  have hone {m : Constraint} (hm : c.Mentions m) : Alike c m := by
    obtain ⟨d, hd, hdm⟩ := hm
    rw [members_of_ne_conj hc, List.mem_singleton] at hd
    exact hd ▸ hdm
  cases hs with
  | atom _ hm =>
    obtain ⟨x, rfl⟩ := (hone hm).equals_inv
    cases n <;> rfl
  | function _ hk | object _ hk | array _ hk =>
    rw [(hone hk).kind_inv]
    cases n <;> rfl

theorem Settles.normalize (hs : Settles v c) (hc : c.Fits .shape false .plain)
    (hv : Fragment.shape.Covers v) (h : c.Holds X v) {n : Nat} (hn : c.size ≤ n)
    (hh : 2 * v.height + 2 ≤ n) : Settles v (c.normalize n) := by
  induction n using Nat.strongRecOn generalizing v c with
  | ind n ih =>
  by_cases hconj : ∃ cs, c = .conj cs
  · obtain ⟨cs, rfl⟩ := hconj
    obtain ⟨k, rfl⟩ : ∃ k, n = k + 2 := ⟨n - 2, by omega⟩
    have hcs := (fits_conj.mp hc).2
    have hsize : ∀ d ∈ cs, d.size ≤ k + 1 := fun d hd => by
      have := size_le_sizeList hd
      rw [size] at hn
      omega
    have hnormal := fun d hd => isNormal_normalize (hcs d hd) (hsize d hd)
    have htidy : ∀ d ∈ cs.map (Constraint.normalize (k + 1)), d.Tidy .shape .plain :=
      List.forall_mem_map.mpr fun d hd => (hnormal d hd).tidy
    have hholds : ∀ d ∈ cs.map (Constraint.normalize (k + 1)), d.Holds X v :=
      List.forall_mem_map.mpr fun d hd =>
        ((hnormal d hd).holds X v hv).mpr (holds_conj.mp h d hd)
    have hmember {d e : Constraint} (hd : d ∈ cs) (he : d.normalize (k + 1) = e) :
        e ∈ (Constraint.conj (cs.map (Constraint.normalize (k + 1)))).members :=
      List.mem_map.mpr ⟨d, hd, he⟩
    rw [Constraint.normalize]
    refine Settles.conjunction (X := X) (c := .conj (cs.map (Constraint.normalize (k + 1)))) ?_ hv
      (by omega) htidy (fun m hm ⟨d, hd, hdm⟩ => ⟨d, hd, mentions_of_alike hdm hm⟩)
      (((conjoins_conjunction (k + 1) true) .plain _ htidy).holds X v hv |>.mpr hholds)
    cases hs with
    | atom hatom hm =>
      obtain ⟨d, hd, hdm⟩ := hm
      obtain ⟨x, rfl⟩ := hdm.equals_inv
      exact .atom hatom ⟨_, hmember hd rfl, hdm⟩
    | function hkind hk =>
      obtain ⟨d, hd, hdm⟩ := hk
      obtain rfl := hdm.kind_inv
      exact .function hkind ⟨_, hmember hd rfl, hdm⟩
    | @object fields _ part hk hpart hrest =>
      obtain ⟨d, hd, hdm⟩ := hk
      obtain rfl := hdm.kind_inv
      refine .ofFields ⟨_, hmember hd rfl, hdm⟩ fun name w hw => ?_
      obtain ⟨d, hd, hdm⟩ := hpart hw
      obtain ⟨e, rfl, hes⟩ := hdm.field_inv
      have hfit : e.Fits .shape false .plain := by simpa [Fits] using hcs _ hd
      have hsize : e.size ≤ k := by simpa [size] using hsize _ hd
      have hwv : e.Holds X w := by
        obtain ⟨_, _, he, hf, hh⟩ := holds_conj.mp h _ hd
        obtain rfl := Value.object.inj he
        exact Option.some.inj (hf.symm.trans hw) ▸ hh
      have hne := not_never_of_holds
        (((isNormal_normalize hfit hsize).holds X w (hv.find? hw)).mpr hwv)
      have hlt := Value.height_lt_of_find? hw
      have heq : (field name e).normalize (k + 1) = .field name (e.normalize k) := by
        simp [Constraint.normalize, finishPart, hne]
      refine ⟨e.normalize k, ⟨_, hmember hd heq, .refl _⟩, ?_⟩
      exact ih k (by omega) ((hrest hw).of_alike hes) hfit (hv.find? hw) hwv hsize (by omega)
    | @array items _ part hk hlen hpart hrest =>
      obtain ⟨d, hd, hdm⟩ := hk
      obtain rfl := hdm.kind_inv
      obtain ⟨l, hl, hlm⟩ := hlen
      refine .ofItems ⟨_, hmember hd rfl, hdm⟩ ⟨l, hmember hl ?_, hlm⟩ fun i w hw => ?_
      · obtain ⟨d, rfl, hdl⟩ := hlm.length_inv
        obtain ⟨x, rfl⟩ := hdl.equals_inv
        have hne := not_never_of_holds (hholds _ (List.mem_map_of_mem hl))
        have heq : Constraint.normalize k (.equals x) = .equals x := by cases k <;> rfl
        simp only [Constraint.normalize, heq] at hne ⊢
        split_ifs at hne ⊢
        · exact absurd hne (by simp [isNever])
        · exact absurd hne (by simp [isNever])
        · rfl
      · obtain ⟨d, hd, hdm⟩ := hpart hw
        obtain ⟨e, rfl, hes⟩ := hdm.elementAt_inv
        have hfit : e.Fits .shape false .plain := hcs (.elementAt i e) hd
        have hsize : e.size ≤ k := by simpa [size] using hsize _ hd
        have hwv : e.Holds X w := by
          obtain ⟨_, _, he, hf, hh⟩ := holds_conj.mp h _ hd
          obtain rfl := Value.array.inj he
          exact Option.some.inj (hf.symm.trans hw) ▸ hh
        have hne := not_never_of_holds
          (((isNormal_normalize hfit hsize).holds X w (hv.getElem? hw)).mpr hwv)
        have hlt := Value.height_lt_of_mem (List.mem_of_getElem? hw)
        have heq : (elementAt i e).normalize (k + 1) = .elementAt i (e.normalize k) := by
          simp [Constraint.normalize, finishPart, hne]
        refine ⟨e.normalize k, ⟨_, hmember hd heq, .refl _⟩, ?_⟩
        exact ih k (by omega) ((hrest hw).of_alike hes) hfit (hv.getElem? hw) hwv hsize (by omega)
  · rwa [hs.normalize_of_ne_conj hconj]

end Normalization

end Constraint

end Stagewise
