import Stagewise.Proofs.Settling

/-! What is decided from the description of a value. A constraint that the value satisfies is found
to follow from it, and one that the value fails visibly is found to be disjoint from it. -/

set_option autoImplicit false

namespace Stagewise

open Association

namespace Constraint

section Entailing

variable {X : Value → Prop} {v : Value} {c d : Constraint}

lemma entails_literal {x : Value} {n : Nat} (hx : x.isWellFormed) (hv : v.isWellFormed)
    (hvx : v.same x) (hc : c.Tidy .shape .plain) (h : c.Holds X v) (hn : c.size ≤ n) :
    entails n [] (.equals x) c := by
  induction n generalizing c with
  | zero => exact absurd (size_pos c) (by omega)
  | succ n ih =>
    rw [entails]
    unfold entailsStep
    split_ifs with heq
    · rfl
    have hadmits : c.admits x :=
      (hc.admits_iff X).mpr ((holds_value_congr hc.isFixFree hv hx hvx).mp h)
    cases c with
    | any => rfl
    | conj cs =>
      refine List.all_eq_true.mpr fun d hd => ?_
      have := size_le_sizeList hd
      rw [size] at hn
      exact ih ((tidy_conj.mp hc).2 d hd) (holds_conj.mp h d hd) (by omega)
    | never => exact h.elim
    | fix body => exact absurd hc.isFixFree (by simp [isFixFree])
    | disj | neg => exact absurd hc.1 (by simp [Fragment.shape])
    | kind | equals | bound | field | elements | length | elementAt | bvar | ref | var =>
      exact hadmits

lemma entails_kind {k l : Kind} (h : k.refines l) {n : Nat} (hn : 0 < n) :
    entails n [] (.kind k) (.kind l) := by
  obtain ⟨m, rfl⟩ : ∃ m, n = m + 1 := ⟨n - 1, by omega⟩
  rw [entails]
  unfold entailsStep
  split_ifs
  · rfl
  · exact h

lemma entails_of_mem_members {m : Constraint} (hd : d.Tidy .shape .plain) (hm : m ∈ d.members)
    (hc : c.Tidy .shape .plain) (hmem : c.isMember) (hne : c.isNever = false) {n : Nat}
    (h : ∀ k, n ≤ k → entails k [] m c) {k : Nat} (hk : n < k) : entails k [] d c := by
  by_cases hconj : ∃ ds, d = .conj ds
  · obtain ⟨ds, rfl⟩ := hconj
    obtain ⟨j, rfl⟩ : ∃ j, k = j + 1 := ⟨k - 1, by omega⟩
    have hany : (ds.any fun d => entails j [] d c) :=
      List.any_eq_true.mpr ⟨m, hm, h j (by omega)⟩
    rw [entails]
    unfold entailsStep
    split_ifs
    · rfl
    cases c with
    | any => rfl
    | never => simp [isNever] at hne
    | conj => simp [isMember] at hmem
    | fix body => exact absurd hc.isFixFree (by simp [isFixFree])
    | disj | neg => exact absurd hc.1 (by simp [Fragment.shape])
    | kind | equals | bound | field | elements | length | elementAt | bvar | ref | var =>
      simp only [hany, Bool.true_or]
  · rw [members_of_ne_conj hconj, List.mem_singleton] at hm
    exact hm ▸ h k (by omega)

lemma entails_part {wrap : Constraint → Constraint}
    (hwrap : (∃ name, wrap = .field name) ∨ (∃ i, wrap = .elementAt i) ∨ wrap = .length) {n : Nat}
    (h : ∀ k, n ≤ k → entails k [] c d) {k : Nat} (hk : n < k) :
    entails k [] (wrap c) (wrap d) := by
  obtain ⟨j, rfl⟩ : ∃ j, k = j + 1 := ⟨k - 1, by omega⟩
  have hcd := h j (by omega)
  rw [entails]
  unfold entailsStep
  split_ifs
  · rfl
  · rcases hwrap with ⟨name, rfl⟩ | ⟨i, rfl⟩ | rfl <;> simpa [atomEntails] using hcd

lemma tupleLength?_of_holds {cs : List Constraint} {items : List Value}
    (hlt : items.length < Number.exactCount) (h : ∀ c ∈ cs, c.Holds X (.array items))
    (hlen : ∃ x, .length (.equals x) ∈ cs) : tupleLength? cs = some items.length := by
  have hcount {x : Value} (hx : (Constraint.length (.equals x)).Holds X (.array items)) :
      ∃ y, x = .number y ∧ Number.zero.le y ∧ y.toCount = items.length := by
    obtain ⟨_, he, hs⟩ := hx
    obtain rfl := Value.array.inj he
    cases x <;> simp only [Holds, Value.ofNat, Value.same, Bool.false_eq_true] at hs
    next y =>
      have hzero : Comparison.ge.holds y Number.zero :=
        (Comparison.holds_congr .ge Number.zero hs) ▸ Number.zero_le_ofNat hlt
      rw [Number.same, Number.isNaN_ofNat, Bool.false_and, Bool.or_false] at hs
      exact ⟨y, rfl, hzero, Number.toCount_eq_of_eq hlt (Number.eq_symm hs)⟩
  induction cs with
  | nil => simp at hlen
  | cons c cs ih =>
    obtain ⟨hc, hcs⟩ := List.forall_mem_cons.mp h
    by_cases hfirst : ∃ x, c = .length (.equals x)
    · obtain ⟨x, rfl⟩ := hfirst
      obtain ⟨y, rfl, hzero, hy⟩ := hcount hc
      simp [tupleLength?, hzero, hy]
    · have hskip : tupleLength? (c :: cs) = tupleLength? cs := by
        rw [tupleLength?]
        exact fun y hy => hfirst ⟨_, hy⟩
      rw [hskip]
      refine ih hcs ?_
      obtain ⟨x, hx⟩ := hlen
      rcases List.mem_cons.mp hx with rfl | hx
      · exact absurd ⟨x, rfl⟩ hfirst
      · exact ⟨x, hx⟩

lemma entails_elements {ds : List Constraint} {items : List Value} {n : Nat}
    (hlt : items.length < Number.exactCount) (h : ∀ d ∈ ds, d.Holds X (.array items))
    (hlen : ∃ x, .length (.equals x) ∈ ds)
    (hitems : ∀ i < items.length, ∃ p, .elementAt i p ∈ ds ∧ entails n [] p c) :
    entails (n + 1) [] (.conj ds) (.elements c) := by
  rw [entails]
  unfold entailsStep
  split_ifs
  · rfl
  refine Bool.or_eq_true_iff.mpr (.inr ?_)
  simp only [conjEntails, tupleLength?_of_holds hlt h hlen]
  refine List.all_eq_true.mpr fun i hi => ?_
  have hi : i < items.length := Nat.lt_of_lt_of_le (List.mem_range.mp hi) (Nat.min_le_left _ _)
  obtain ⟨p, hp, he⟩ := hitems i hi
  exact List.any_eq_true.mpr ⟨_, hp, by simp [he]⟩

namespace Settles

lemma mentions_literal (hs : Settles v d) (hatom : v.kind.refines .object = false) :
    d.Mentions (.equals v) := by
  cases hs with
  | atom _ h => exact h
  | function hk => simp [hk, Kind.refines] at hatom
  | object | array => simp [Value.kind, Kind.refines] at hatom

lemma mentions_kind (hs : Settles v d) (hobj : v.kind.refines .object) :
    d.Mentions (.kind v.kind) := by
  cases hs with
  | atom h => simp [h] at hobj
  | function hv hk => exact hv ▸ hk
  | object _ hk | array _ hk => exact hk

lemma entails_of_atomic (hs : Settles v d) (hatom : v.kind.refines .object = false)
    (hd : d.Tidy .shape .plain) (hdv : d.Holds X v) (hv : v.isWellFormed)
    (hc : c.Tidy .shape .plain) (hmem : c.isMember) (h : c.Holds X v) {n : Nat}
    (hn : c.size < n) : entails n [] d c := by
  obtain ⟨_, he, hes⟩ := hs.mentions_literal hatom
  obtain ⟨x, rfl⟩ := hes.equals_inv
  have hx : d.Mentions (.equals x) := ⟨_, he, .refl _⟩
  exact entails_of_mem_members hd he hc hmem (not_never_of_holds h)
    (fun k hk => entails_literal (tidy_of_mentions hd hx).2.1 hv (holds_of_mentions hd hv hdv hx)
      hc h hk) hn

end Settles

theorem Settles.entails (hs : Settles v d) (hd : d.Tidy .shape .plain) (hdv : d.Holds X v)
    (hv : Fragment.shape.Covers v) (hc : c.Tidy .shape .plain) (h : c.Holds X v) {n : Nat}
    (hn : 2 * c.size ≤ n) : entails n [] d c := by
  -- by induction on what is entailed; a statement about a part costs two steps, one to find the
  -- member that speaks of it and one to go into the part
  induction hsize : c.size using Nat.strongRecOn generalizing v c d n with
  | ind size ih =>
  subst hsize
  have hpos := size_pos c
  obtain ⟨k, rfl⟩ : ∃ k, n = k + 1 := ⟨n - 1, by omega⟩
  cases c with
  | any =>
    rw [Constraint.entails]
    unfold entailsStep
    split_ifs
    · rfl
    · cases d <;> rfl
  | conj cs =>
    have hall : (cs.all fun c => Constraint.entails k [] d c) := by
      refine List.all_eq_true.mpr fun c hmem => ?_
      have := size_le_sizeList hmem
      rw [size] at hn
      exact ih _ (by rw [size]; omega) hs hd hdv hv ((tidy_conj.mp hc).2 c hmem)
        (holds_conj.mp h c hmem) (by omega) rfl
    rw [Constraint.entails]
    unfold entailsStep
    split_ifs
    · rfl
    · cases d with
      | disj => exact absurd hd.1 (by simp [Fragment.shape])
      | _ => first | rfl | exact hall
  | never => exact h.elim
  | fix body => exact absurd hc.isFixFree (by simp [isFixFree])
  | disj | neg => exact absurd hc.1 (by simp [Fragment.shape])
  | ref | var => exact hc.elim
  | bvar => exact absurd hc.2 (by simp)
  | kind l =>
    by_cases hatom : v.kind.refines .object
    · obtain ⟨_, he, hek⟩ := hs.mentions_kind hatom
      obtain rfl := hek.kind_inv
      exact entails_of_mem_members hd he hc rfl rfl (fun j hj => entails_kind h hj) (by omega)
    · exact hs.entails_of_atomic (by simpa using hatom) hd hdv hv.1 hc rfl h (by omega)
  | equals w =>
    have hatom := hc.2.2.2 rfl
    rw [← Value.kind_eq_of_same h] at hatom
    exact hs.entails_of_atomic hatom hd hdv hv.1 hc rfl h (by omega)
  | bound r x =>
    obtain ⟨y, rfl, _⟩ := id h
    exact hs.entails_of_atomic rfl hd hdv hv.1 hc rfl h (by omega)
  | field name e =>
    obtain ⟨fields, w, rfl, hw, hew⟩ := id h
    have hce : e.Tidy .shape .plain := by simpa [Fits] using hc
    cases hs with
    | atom hatom => simp [Value.kind, Kind.refines] at hatom
    | function hfun => simp [Value.kind] at hfun
    | @object _ _ part hk hpart hrest =>
      obtain ⟨_, hm, hmp⟩ := hpart hw
      obtain ⟨p, rfl, hps⟩ := hmp.field_inv
      have hmention : d.Mentions (.field name p) := ⟨_, hm, .refl _⟩
      have htidy : p.Tidy .shape .plain := by simpa [Fits] using tidy_of_mentions hd hmention
      have hpw := holds_of_mentions_field hd hv.1 hdv hmention hw
      rw [size] at hn
      refine entails_of_mem_members hd hm hc rfl rfl (fun j hj => ?_)
        (show 2 * e.size + 1 < k + 1 by omega)
      refine entails_part (.inl ⟨name, rfl⟩) (n := 2 * e.size) (fun i hi => ?_) (by omega)
      exact ih _ (by rw [size]; omega) ((hrest hw).of_alike hps) htidy hpw (hv.find? hw) hce hew
        hi rfl
  | elementAt i e =>
    obtain ⟨items, w, rfl, hw, hew⟩ := id h
    cases hs with
    | atom hatom => simp [Value.kind, Kind.refines] at hatom
    | function hfun => simp [Value.kind] at hfun
    | @array _ _ part hk hlen hpart hrest =>
      obtain ⟨_, hm, hmp⟩ := hpart hw
      obtain ⟨p, rfl, hps⟩ := hmp.elementAt_inv
      have hmention : d.Mentions (.elementAt i p) := ⟨_, hm, .refl _⟩
      have hpw := holds_of_mentions_elementAt hd hv.1 hdv hmention hw
      have htidy : (elementAt i p).Tidy .shape .plain := tidy_of_mentions hd hmention
      have hce : e.Tidy .shape .plain := hc
      rw [size] at hn
      refine entails_of_mem_members hd hm hc rfl rfl (fun j hj => ?_)
        (show 2 * e.size + 1 < k + 1 by omega)
      refine entails_part (.inr (.inl ⟨i, rfl⟩)) (n := 2 * e.size) (fun l hl => ?_) (by omega)
      exact ih _ (by rw [size]; omega) ((hrest hw).of_alike hps) htidy hpw (hv.getElem? hw)
        hce hew hl rfl
  | length e =>
    obtain ⟨items, rfl, hew⟩ := id h
    cases hs with
    | atom hatom => simp [Value.kind, Kind.refines] at hatom
    | function hfun => simp [Value.kind] at hfun
    | @array _ _ part hk hlen hpart hrest =>
      obtain ⟨_, hm, hml⟩ := hlen
      obtain ⟨_, rfl, hxl⟩ := hml.length_inv
      obtain ⟨x, rfl⟩ := hxl.equals_inv
      have hmention : d.Mentions (.length (.equals x)) := ⟨_, hm, .refl _⟩
      obtain ⟨_, he, hx⟩ := holds_of_mentions hd hv.1 hdv hmention
      obtain rfl := Value.array.inj he
      rw [size] at hn
      refine entails_of_mem_members hd hm hc rfl rfl (fun j hj => ?_)
        (show e.size + 1 < k + 1 by omega)
      refine entails_part (.inr (.inr rfl)) (n := e.size) (fun l hl => ?_) (by omega)
      exact entails_literal (tidy_of_mentions hd hmention).2.2.2.1 rfl hx hc.2.2 hew hl
  | elements e =>
    obtain ⟨items, rfl, hew⟩ := id h
    cases hs with
    | atom hatom => simp [Value.kind, Kind.refines] at hatom
    | function hfun => simp [Value.kind] at hfun
    | @array _ _ part hk hlen hpart hrest =>
      obtain ⟨_, hm, hml⟩ := hlen
      obtain ⟨_, rfl, hxl⟩ := hml.length_inv
      obtain ⟨x, rfl⟩ := hxl.equals_inv
      obtain ⟨ds, rfl⟩ : ∃ ds, d = .conj ds := by
        by_contra hconj
        obtain ⟨_, hm', hmk⟩ := hk
        rw [members_of_ne_conj hconj, List.mem_singleton] at hm hm'
        obtain rfl := hmk.kind_inv
        exact Constraint.noConfusion (hm.trans hm'.symm)
      rw [size] at hn
      refine entails_elements (hv.length_lt rfl) (holds_conj.mp hdv) ⟨x, hm⟩ fun i hi => ?_
      have hw := List.getElem?_eq_getElem hi
      obtain ⟨_, hm, hmp⟩ := hpart hw
      obtain ⟨p, rfl, hps⟩ := hmp.elementAt_inv
      have hmention : (Constraint.conj ds).Mentions (.elementAt i p) := ⟨_, hm, .refl _⟩
      have hpw := holds_of_mentions_elementAt hd hv.1 hdv hmention hw
      have htidy : (elementAt i p).Tidy .shape .plain := tidy_of_mentions hd hmention
      have hce : e.Tidy .shape .plain := hc
      exact ⟨p, hm, ih _ (by rw [size]; omega) ((hrest hw).of_alike hps) htidy hpw
        (hv.getElem? hw) hce (hew _ (List.getElem_mem hi)) (by omega) rfl⟩

end Entailing

/-! ### The description of a value -/

section Descriptions

variable {X : Value → Prop} {v : Value}

lemma mem_ofFields {fields : List (String × Value)} {d : Constraint} :
    d ∈ ofFields fields ↔ ∃ q ∈ fields, d = .field q.1 (ofValue q.2) := by
  induction fields with
  | nil => simp [ofFields]
  | cons q fields ih => simp [ofFields, ih]

lemma mem_elementsFrom {start : Nat} {cs : List Constraint} {d : Constraint} :
    d ∈ elementsFrom start cs ↔ ∃ i c, cs[i]? = some c ∧ d = .elementAt (start + i) c := by
  induction cs generalizing start with
  | nil => simp [elementsFrom]
  | cons c cs ih =>
    rw [elementsFrom, List.mem_cons, ih]
    constructor
    · rintro (rfl | ⟨i, e, he, rfl⟩)
      · exact ⟨0, c, rfl, rfl⟩
      · exact ⟨i + 1, e, he, by rw [Nat.add_right_comm]; rfl⟩
    · rintro ⟨i, e, he, rfl⟩
      cases i with
      | zero => exact .inl (by simp_all)
      | succ i => exact .inr ⟨i, e, he, by rw [Nat.add_right_comm]; rfl⟩

lemma ofItems_eq_elementsFrom (start : Nat) (items : List Value) :
    ofItems start items = elementsFrom start (items.map ofValue) := by
  induction items generalizing start with
  | nil => rfl
  | cons v items ih => rw [ofItems, ih, List.map_cons, elementsFrom]

lemma mem_ofItems {items : List Value} {d : Constraint} :
    d ∈ ofItems 0 items ↔ ∃ i w, items[i]? = some w ∧ d = .elementAt i (ofValue w) := by
  simp [ofItems_eq_elementsFrom, mem_elementsFrom]

lemma ofValue_of_atomic (hv : v.kind.refines .object = false) : ofValue v = .equals v := by
  cases v <;> first | rfl | simp [Value.kind, Kind.refines] at hv

structure Determines (v : Value) (c : Constraint) : Prop where
  fits : c.Fits .shape false .plain
  holds : c.Holds (fun _ => True) v
  settles : Settles v c

theorem determines_ofValue (hv : v.isWellFormed) (hself : v.same v) :
    Determines v (ofValue v) := by
  induction hn : v.height using Nat.strongRecOn generalizing v with
  | ind n ih =>
  subst hn
  by_cases hatom : v.kind.refines .object
  · cases v with
    | number | string | bool | null | type => simp [Value.kind, Kind.refines] at hatom
    | closure | builtin =>
      exact ⟨trivial, rfl, .function rfl ⟨_, List.mem_singleton_self _, .refl _⟩⟩
    | object fields =>
      rw [Value.isWellFormed, Bool.and_eq_true, decide_eq_true_eq,
        Value.areWellFormedFields_iff] at hv
      have hpart : ∀ q ∈ fields, find? q.1 fields = some q.2 ∧ Determines q.2 (ofValue q.2) := by
        intro q hq
        have hw := find?_eq_some_of_mem hv.1 hq
        exact ⟨hw, ih _ (Value.height_lt_of_find? hw) (hv.2 q hq)
          (Value.same_self_of_find? hself hw) rfl⟩
      rw [ofValue]
      refine ⟨fits_conj.mpr ⟨by simp, List.forall_mem_cons.mpr ⟨trivial, fun d hd => ?_⟩⟩,
        holds_conj.mpr (List.forall_mem_cons.mpr ⟨rfl, fun d hd => ?_⟩), ?_⟩
      · obtain ⟨q, hq, rfl⟩ := mem_ofFields.mp hd
        simpa [Fits] using (hpart q hq).2.fits
      · obtain ⟨q, hq, rfl⟩ := mem_ofFields.mp hd
        exact ⟨fields, q.2, rfl, (hpart q hq).1, (hpart q hq).2.holds⟩
      · refine .ofFields ⟨_, List.mem_cons_self, .refl _⟩ fun name w hw => ?_
        have hq := mem_of_find?_eq_some hw
        exact ⟨ofValue w, ⟨_, List.mem_cons_of_mem _ (mem_ofFields.mpr ⟨_, hq, rfl⟩), .refl _⟩,
          (hpart _ hq).2.settles⟩
    | array items =>
      rw [Value.isWellFormed, Value.areWellFormed_iff] at hv
      have hpart : ∀ w ∈ items, Determines w (ofValue w) := fun w hw =>
        ih _ (Value.height_lt_of_mem hw) (hv w hw) (Value.same_self_of_mem hself hw) rfl
      have hlength : (Constraint.length (.equals (.ofNat items.length))).Fits .shape false .plain :=
        ⟨rfl, .inl rfl, rfl, rfl, by simp [Fragment.shape], fun _ => rfl⟩
      rw [ofValue]
      refine ⟨fits_conj.mpr ⟨by simp, List.forall_mem_cons.mpr ⟨trivial,
        List.forall_mem_cons.mpr ⟨hlength, fun d hd => ?_⟩⟩⟩,
        holds_conj.mpr (List.forall_mem_cons.mpr ⟨rfl, List.forall_mem_cons.mpr
          ⟨⟨items, rfl, Number.same_refl _⟩, fun d hd => ?_⟩⟩), ?_⟩
      · obtain ⟨i, w, hw, rfl⟩ := mem_ofItems.mp hd
        exact (hpart w (List.mem_of_getElem? hw)).fits
      · obtain ⟨i, w, hw, rfl⟩ := mem_ofItems.mp hd
        exact ⟨items, w, rfl, hw, (hpart w (List.mem_of_getElem? hw)).holds⟩
      · refine .ofItems ⟨_, List.mem_cons_self, .refl _⟩ ⟨_, by simp [members], .refl _⟩
          fun i w hw => ?_
        have hmem : .elementAt i (ofValue w) ∈ ofItems 0 items :=
          mem_ofItems.mpr ⟨i, w, hw, rfl⟩
        exact ⟨ofValue w, ⟨_, by simp [members, hmem], .refl _⟩,
          (hpart w (List.mem_of_getElem? hw)).settles⟩
  · have hatom : v.kind.refines .object = false := by simpa using hatom
    rw [ofValue_of_atomic hatom]
    exact ⟨⟨rfl, hv, by simp [Fragment.shape], fun _ => hatom⟩, hself,
      .atom hatom ⟨_, List.mem_singleton_self _, .refl _⟩⟩

lemma four_mul_lt_allowance (n : Nat) : 4 * n + 3 ≤ allowance n := by
  have h : n < 2 ^ n := Nat.lt_two_pow_self
  have hpow : allowance n = 2 ^ n * 2 ^ 20 := Nat.pow_add 2 n 20
  omega

lemma isNormal_simplify_of_shape {c : Constraint} (hc : c.Fits .shape false .plain) :
    IsNormal .shape .plain c.simplify c := by
  rw [Constraint.simplify]
  exact isNormal_normalize hc (size_le_allowance c.size)

lemma not_disjoint_of_holds {c d : Constraint} (hv : Fragment.shape.Covers v)
    (hc : c.Fits .shape false .plain) (hd : d.Fits .shape false .plain) (hcv : c.Holds X v)
    (hdv : d.Holds X v) : c.disjoint d = false := by
  have hboth : (Constraint.conj [c, d]).Fits .shape false .plain :=
    fits_conj.mpr ⟨by simp, by simp [hc, hd]⟩
  have hnormal := isNormal_simplify_of_shape hboth
  rw [disjoint, unify]
  generalize (Constraint.conj [c, d]).simplify = r at hnormal
  exact not_never_of_holds ((hnormal.holds X v hv).mpr (by simp [hcv, hdv]))

namespace Determines

variable {c d : Constraint} (h : Determines v c) (hv : Fragment.shape.Covers v)

include h hv

lemma normalize {n : Nat} (hn : 2 * c.size + 2 ≤ n) : Determines v (c.normalize n) := by
  have hsize : c.size ≤ n := by omega
  have hnormal := isNormal_normalize h.fits hsize
  have hheight := h.settles.height_le_size hv.1 (.refl c)
  exact ⟨hnormal.tidy.of_tidy, (hnormal.holds _ v hv).mpr h.holds,
    h.settles.normalize h.fits hv h.holds hsize (by omega)⟩

lemma simplify : Determines v c.simplify := by
  have hle := four_mul_lt_allowance c.size
  rw [Constraint.simplify]
  exact h.normalize hv (by omega)

theorem implies (hd : d.Fits .shape false .plain) (hdv : d.Holds (fun _ => True) v) :
    c.implies d := by
  have hs := h.simplify hv
  have hleft := isNormal_simplify_of_shape h.fits
  have hright := isNormal_simplify_of_shape hd
  rw [Constraint.implies]
  generalize c.simplify = a at hs hleft
  generalize d.simplify = b at hright
  have hle := four_mul_lt_allowance (a.size + b.size)
  exact hs.settles.entails hleft.tidy hs.holds hv hright.tidy ((hright.holds _ v hv).mpr hdv)
    (by omega)

theorem disjoint (hd : d.Fits .shape false .plain) (hdv : ¬ d.Passes v) : c.disjoint d := by
  by_contra hne
  obtain ⟨n, hn⟩ : ∃ n, allowance (Constraint.conj [c, d]).size = n + 1 :=
    ⟨_, (Nat.succ_pred_eq_of_pos (Nat.two_pow_pos _)).symm⟩
  have hle := four_mul_lt_allowance (Constraint.conj [c, d]).size
  have hsize : (Constraint.conj [c, d]).size = c.size + d.size + 1 := by
    simp [size, sizeList]
  have hcn := h.normalize hv (n := n) (by omega)
  have hdn := isNormal_normalize hd (n := n) (by omega)
  have htidy : ∀ e ∈ [c.normalize n, d.normalize n], e.Tidy .shape .plain := by
    simpa using ⟨(isNormal_normalize h.fits (by omega)).tidy, hdn.tidy⟩
  have hheight := h.settles.height_le_size hv.1 (.refl c)
  have hfalse : (Constraint.conjunction n true [c.normalize n, d.normalize n]).isNever = false := by
    simpa [Constraint.disjoint, unify, Constraint.simplify, hn, Constraint.normalize] using hne
  have hall := hcn.settles.passes (htidy _ List.mem_cons_self) hcn.holds hv (by omega) htidy
    (fun m _ hm => ⟨_, List.mem_cons_self, hm⟩) hfalse
  exact hdv (passes_normalize hd (n := n) (by omega) hv (hall _ (by simp)))

end Determines

end Descriptions

end Constraint

end Stagewise
