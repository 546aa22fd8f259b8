import Stagewise.Proofs.NestedRecursion

/-! The normal form of a conjunction whose members may have free variables. Each step keeps the
meaning under every valuation, on the values that the site has room for. -/

set_option autoImplicit false

namespace Stagewise.Constraint

variable {tidy : Bool} {p : Site}

/-! ### Identical constraints -/

mutual

theorem Stands.means_of_same : ∀ {c d : Constraint} {p : Site} {ρ : Valuation} {v : Value},
    c.Stands tidy p → c.same d → v.height ≤ p.room → (c.Means ρ v ↔ d.Means ρ v)
  | .kind _, d, _, _, _, _, h, _ | .bvar _, d, _, _, _, _, h, _ => by
    cases d <;> simp_all [same, Means]
  | .equals _, d, _, _, _, hc, h, _ => by
    cases d <;> simp only [same, Bool.false_eq_true] at h
    obtain ⟨x, rfl, _⟩ := hc
    exact Value.same_right_comm rfl h
  | .bound r m, d, _, _, _, _, h, _ => by
    cases d <;> simp only [same, Bool.false_eq_true, Bool.and_eq_true, beq_iff_eq] at h
    obtain ⟨rfl, h⟩ := h
    simp [Means, Comparison.holds_congr_bound r _ h]
  | .field _ c, d, _, _, _, hc, h, hv | .elementAt _ c, d, _, _, _, hc, h, hv => by
    cases d <;> simp only [same, Bool.false_eq_true, Bool.and_eq_true, beq_iff_eq] at h
    obtain ⟨rfl, h⟩ := h
    exact Component.has_congr fun w hw => Stands.means_of_same (c := c)
      (hc w.height (Nat.lt_of_lt_of_le hw hv)) h (Nat.le_refl _)
  | .elements c, d, _, _, _, hc, h, hv => by
    cases d <;> simp only [same, Bool.false_eq_true] at h
    exact Component.has_congr fun w hw => Stands.means_of_same (c := c)
      (hc w.height (Nat.lt_of_lt_of_le hw hv)) h (Nat.le_refl _)
  | .conj cs, d, _, _, _, hc, h, hv => by
    cases d <;> simp only [same, Bool.false_eq_true] at h
    simpa only [Means] using AllStand.means_of_same hc.2 h hv
  | .fix b, d, _, _, _, hc, h, hv => by
    cases d <;> simp only [same, Bool.false_eq_true] at h
    obtain ⟨k, _, _, hb⟩ := hc
    exact means_fix_congr hb (fun _ w hw => hb.means_of_same h hw) hv
  | .any, d, _, _, _, _, h, _ | .never, d, _, _, _, _, h, _ => by cases d <;> simp_all [same]
  | .length _, _, _, _, _, hc, _, _ | .disj _, _, _, _, _, hc, _, _ | .neg _, _, _, _, _, hc, _, _
  | .ref _, _, _, _, _, hc, _, _ | .var _, _, _, _, _, hc, _, _ => hc.elim

theorem AllStand.means_of_same : ∀ {cs ds : List Constraint} {p : Site} {ρ : Valuation} {v : Value},
    AllStand tidy cs p → sameList cs ds → v.height ≤ p.room → (MeansAll cs ρ v ↔ MeansAll ds ρ v)
  | [], ds, _, _, _, _, h, _ => by cases ds <;> simp_all [sameList]
  | c :: cs, ds, _, _, _, hc, h, hv => by
    cases ds <;> simp only [sameList, Bool.false_eq_true, Bool.and_eq_true] at h
    exact and_congr (hc.1.means_of_same h.1 hv) (AllStand.means_of_same hc.2 h.2 hv)

end

lemma isConjunctive_means (ρ : Valuation) {v : Value} (hv : v.height ≤ p.room) :
    IsConjunctive (·.Stands true p) (·.Means ρ v) :=
  ⟨fun h => (stands_conj.mp h).2, trivial, means_conj, fun hc h => hc.means_of_same h hv⟩

/-! ### Conjunctions -/

def Coincide (p : Site) (cs ds : List Constraint) : Prop :=
  ∀ (ρ : Valuation) (v : Value), v.height ≤ p.room →
    ((∀ c ∈ cs, c.Means ρ v) ↔ ∀ d ∈ ds, d.Means ρ v)

def Conflict (p : Site) (cs : List Constraint) : Prop :=
  ∀ (ρ : Valuation) (v : Value), v.height ≤ p.room → ¬ ∀ c ∈ cs, c.Means ρ v

structure IsMeet (p : Site) (c : Constraint) (cs : List Constraint) : Prop where
  stands : c.Stands true p
  means : ∀ (ρ : Valuation) (v : Value), v.height ≤ p.room →
    (c.Means ρ v ↔ ∀ d ∈ cs, d.Means ρ v)

def Combines (conj : List Constraint → Constraint) : Prop :=
  ∀ (p : Site) (cs : List Constraint), p.InRange → (∀ c ∈ cs, c.Stands true p) →
    IsMeet p (conj cs) cs

structure Conjunct (p : Site) (c : Constraint) : Prop where
  stands : c.Stands true p
  isFlat : c.isFlat

lemma Conflict.of_coincide {cs ds : List Constraint} (h : Conflict p ds) (k : Coincide p cs ds) :
    Conflict p cs :=
  fun ρ v hv hall => h ρ v hv ((k ρ v hv).mp hall)

lemma IsMeet.of_coincide {c : Constraint} {cs ds : List Constraint} (h : IsMeet p c ds)
    (k : Coincide p cs ds) : IsMeet p c cs :=
  ⟨h.stands, fun ρ v hv => (h.means ρ v hv).trans (k ρ v hv).symm⟩

lemma Conflict.isMeet {cs : List Constraint} (h : Conflict p cs) : IsMeet p never cs :=
  ⟨trivial, fun ρ v hv => ⟨False.elim, h ρ v hv⟩⟩

lemma finishConj_meet {cs : List Constraint} (h : ∀ c ∈ cs, c.Stands true p)
    (he : cs.countP isElements ≤ 1) : IsMeet p (finishConj cs) cs := by
  have ht : ∀ c ∈ dedup (sort cs), c.Stands true p := fun c hc => h c (mem_of_mem_dedup_sort hc)
  have hn : (dedup (sort cs)).countP isElements ≤ 1 :=
    Nat.le_trans (dedup_sublist _).countP_le ((sort_perm cs).countP_eq _ ▸ he)
  refine ⟨?_, fun ρ v hv => forall_finishConj (isConjunctive_means ρ hv) h⟩
  unfold finishConj
  split
  · trivial
  · next c hd => exact ht c (by simp [hd])
  · exact stands_conj.mpr ⟨fun _ => hn, ht⟩

lemma Combines.conjoin {conj : List Constraint → Constraint} (h : Combines conj) :
    Combines (conjoin conj) := by
  intro p cs hr hcs
  match cs with
  | [] => exact h p [] hr hcs
  | [c] => exact ⟨hcs c List.mem_cons_self, fun ρ v _ => by simp [Constraint.conjoin]⟩
  | c :: d :: ds => exact h p _ hr hcs

/-! ### Merging what is said about the same part -/

section Merge

variable {conj conjPlain : List Constraint → Constraint} (hconj : Combines conj) (hr : p.InRange)
include hconj hr

lemma stands_conjoin_below {cs : List Constraint}
    (h : ∀ c ∈ cs, ∀ r < p.room, c.Stands true (p.below r)) :
    ∀ r < p.room, (conjoin conj cs).Stands true (p.below r) :=
  fun r hlt => (hconj.conjoin _ cs (hr.below hlt) fun c hc => h c hc r hlt).stands

lemma has_conjoin {cs : List Constraint} (hne : cs ≠ [])
    (h : ∀ c ∈ cs, ∀ r < p.room, c.Stands true (p.below r)) {q : Component} {ρ : Valuation}
    {v : Value} (hv : v.height ≤ p.room) :
    q.Has ((conjoin conj cs).Means ρ) v ↔ ∀ c ∈ cs, q.Has (c.Means ρ) v := by
  rw [← Component.has_forall hne]
  refine Component.has_congr fun w hw => ?_
  have hlt := Nat.lt_of_lt_of_le hw hv
  have hmeet := hconj.conjoin _ cs (hr.below hlt) fun c hc => h c hc w.height hlt
  exact hmeet.means ρ w (Nat.le_refl _)

variable {flat : List Constraint} (hflat : ∀ c ∈ flat, c.Stands true p)
include hflat

omit hconj hr in
lemma stands_ofList : (Structure.ofList flat).All (·.Stands true p) :=
  (Structure.all_ofList flat _).mpr hflat

lemma stands_mergedElements :
    ∀ e ∈ mergedElements conj (Structure.ofList flat), ∀ r < p.room, e.Stands true (p.below r) := by
  simp only [mergedElements]
  split_ifs
  · simp
  · simpa using stands_conjoin_below hconj hr (stands_ofList hflat).2.1

section Means

variable {ρ : Valuation} {v : Value} (hv : v.height ≤ p.room)
include hv

lemma means_fields {q : String × List Constraint} (hq : q ∈ (Structure.ofList flat).fields) :
    (field q.1 (conjoin conj q.2)).Means ρ v ↔ ∀ c ∈ q.2, (field q.1 c).Means ρ v :=
  has_conjoin hconj hr ((Structure.isGrouped_ofList flat).fields q hq)
    ((stands_ofList hflat).1 q hq) hv

lemma means_mergedElements :
    (∀ e ∈ mergedElements conj (Structure.ofList flat), (elements e).Means ρ v) ↔
      ∀ c ∈ (Structure.ofList flat).elements, (elements c).Means ρ v := by
  simp only [mergedElements]
  split_ifs with he
  · simp [List.isEmpty_iff.mp he]
  · have hall := has_conjoin hconj hr (by simpa using he) (stands_ofList hflat).2.1
      (q := .items) (ρ := ρ) hv
    simpa only [Means, List.forall_mem_singleton] using hall

lemma means_positions (hall : ∀ c ∈ (Structure.ofList flat).elements, (elements c).Means ρ v)
    {q : Nat × List Constraint} (hq : q ∈ (Structure.ofList flat).positions) :
    (elementAt q.1 (conjoin conj (q.2 ++ mergedElements conj (Structure.ofList flat)))).Means ρ v ↔
      ∀ c ∈ q.2, (elementAt q.1 c).Means ρ v := by
  have hne := (Structure.isGrouped_ofList flat).positions q hq
  have hstands := List.forall_mem_append.mpr
    ⟨(stands_ofList hflat).2.2.1 q hq, stands_mergedElements hconj hr hflat⟩
  refine (has_conjoin hconj hr (by simp [hne]) hstands (q := .item q.1) hv).trans ?_
  rw [List.forall_mem_append]
  refine and_iff_left_of_imp fun h e he => ?_
  obtain ⟨c, hc⟩ := List.exists_mem_of_ne_nil q.2 hne
  exact Component.Has.of_items ((means_mergedElements hconj hr hflat hv).mpr hall e he) (h c hc)

end Means

omit hconj hr in
lemma mergedLength_eq : mergedLength conj conjPlain (Structure.ofList flat) = some [] := by
  have hnil : (Structure.ofList flat).lengths = [] :=
    List.eq_nil_iff_forall_not_mem.mpr fun c hc => (stands_ofList hflat).2.2.2.1 c hc
  simp [mergedLength, hnil]

lemma mergesParts_means {ρ : Valuation} {v : Value} (hv : v.height ≤ p.room) :
    MergesParts conj (Structure.ofList flat) (·.Means ρ v) := by
  refine ⟨fun q hq => ?_, means_mergedElements hconj hr hflat hv, fun hall q hq => ?_, ?_, ?_⟩
  · exact means_fields hconj hr hflat hv hq
  · exact means_positions hconj hr hflat hv hall hq
  · exact fun _ ⟨_, _, _, _, h⟩ => h
  · exact fun _ ⟨_, _, _, _, h⟩ => h

lemma mergeStructure_conflict (h : mergeStructure conj conjPlain flat = none) :
    Conflict p flat := by
  refine fun ρ v hv => (mergesParts_means hconj hr hflat hv).not_forall h fun hn => ?_
  rw [mergedLength_eq hflat] at hn
  simp at hn

lemma mergeStructure_coincide (hf : ∀ c ∈ flat, c.isFlat) {out : List Constraint}
    (h : mergeStructure conj conjPlain flat = some out) :
    (∀ c ∈ out, Conjunct p c) ∧ Coincide p flat out := by
  have hs := stands_ofList hflat
  have hlengths {lengths : List Constraint}
      (hl : mergedLength conj conjPlain (Structure.ofList flat) = some lengths) : lengths = [] := by
    simpa [mergedLength_eq hflat, eq_comm] using hl
  refine ⟨?_, fun ρ v hv => (mergesParts_means hconj hr hflat hv).forall_iff h fun lengths hl => ?_⟩
  · have hel := stands_mergedElements hconj hr hflat
    have hothers := ((Structure.all_ofList flat (·.isFlat)).mpr hf).2.2.2.2
    obtain ⟨lengths, hl, rfl⟩ := mergeStructure_eq_some h
    obtain rfl := hlengths hl
    simp only [List.forall_mem_append, List.forall_mem_map, List.append_nil]
    refine ⟨⟨⟨fun c hc => ⟨hs.2.2.2.2 c hc, hothers c hc⟩, fun q hq => ⟨?_, rfl⟩⟩,
      fun e he => ⟨hel e he, rfl⟩⟩, fun q hq => ⟨?_, rfl⟩⟩
    · exact stands_conjoin_below hconj hr (hs.1 q hq)
    · exact stands_conjoin_below hconj hr (List.forall_mem_append.mpr ⟨hs.2.2.1 q hq, hel⟩)
  · obtain rfl := hlengths hl
    exact iff_of_true (by simp) fun c hc => (hs.2.2.2.1 c hc).elim

end Merge

/-! ### Kinds -/

lemma kind_refines_of_means {c : Constraint} {ρ : Valuation} {v : Value} {k : Kind}
    (h : c.kind? = some k) (hc : c.Means ρ v) : v.kind.refines k := by
  cases c <;> simp only [kind?, reduceCtorEq, Option.some.injEq] at h <;> subst h
  case kind => exact hc
  case equals w => simp [Value.kind_eq_of_same hc]
  case bound => obtain ⟨x, rfl, _⟩ := hc; rfl
  case field => obtain ⟨_, _, rfl, _⟩ := hc; rfl
  case elements => obtain ⟨_, rfl, _⟩ := hc; rfl
  case length => obtain ⟨_, rfl, _⟩ := hc; rfl
  case elementAt => obtain ⟨_, _, rfl, _⟩ := hc; rfl

lemma exists_number_of_means {c : Constraint} {ρ : Valuation} {v : Value}
    (h : c.kind? = some .number) (hc : c.Means ρ v) : ∃ x, v = .number x := by
  have hr := kind_refines_of_means h hc
  cases v <;> simp_all [Value.kind, Kind.refines]

lemma exists_commonKind_of_means {cs : List Constraint} {ρ : Valuation} {v : Value}
    (h : ∀ c ∈ cs, c.Means ρ v) :
    ∃ common, commonKind none cs = some common ∧ ∀ k ∈ common, v.kind.refines k :=
  exists_commonKind_of_refines none (by simp) fun c hc _ hk => kind_refines_of_means hk (h c hc)

lemma finishKinds_meet {cs ds : List Constraint} {common : Option Kind}
    (hkind : commonKind none cs = some common) (hds : ∀ c ∈ ds, c.Stands true p)
    (hcount : ds.countP isElements ≤ 1) (hsame : Coincide p cs ds)
    (hmem : ∀ k, .kind k ∈ ds → .kind k ∈ cs) :
    IsMeet p (finishConj ((ds.filter fun c => !c.isKind) ++ (common.map Constraint.kind).toList))
      cs := by
  have hstands : ∀ c ∈ (ds.filter fun c => !c.isKind) ++ (common.map Constraint.kind).toList,
      c.Stands true p := by
    simp only [List.forall_mem_append]
    refine ⟨fun c hc => hds c (List.mem_of_mem_filter hc), ?_⟩
    cases common <;> simp [Stands]
  have hone := Nat.le_trans (countP_finishKinds_le common) hcount
  refine (finishConj_meet hstands hone).of_coincide ?_
  exact fun ρ v hv => forall_finishKinds kind_refines_of_means id hkind (hsame ρ v hv) hmem

/-! ### Bounds -/

lemma hasProperBounds_conjunct (p : Site) : HasProperBounds (Conjunct p) :=
  ⟨⟨fun h => h.stands, fun h => ⟨h, rfl⟩⟩, fun h => ⟨⟨_, rfl, h⟩, rfl⟩, fun h => h.stands.elim⟩

lemma readsValue_means (ρ : Valuation) (v : Value) : ReadsValue (·.Means ρ v) v := by
  refine ⟨exists_number_of_means, ?_⟩
  rintro x rfl
  exact ⟨rfl, by simp [Means], by simp [Means, Value.same], by simp [Means],
    by simp [Means, Value.same]⟩

/-! ### Literals -/

section Numbers

variable {x : Number}

theorem not_means_number_of_hasComponent : ∀ {c : Constraint} {ρ : Valuation}, c.hasComponent →
    ¬ c.Means ρ (.number x)
  | .field _ _, _, _ | .elementAt _ _, _, _ => by rintro ⟨_, _, h, _⟩; cases h
  | .elements _, _, _ => by rintro ⟨_, h, _⟩; cases h
  | .conj cs, _, h => by
    rw [hasComponent, haveComponent_iff] at h
    obtain ⟨c, hc, h⟩ := h
    exact fun hm => not_means_number_of_hasComponent h (means_conj.mp hm c hc)
  | .fix body, _, h =>
    not_means_number_of_hasComponent (c := body) (by simpa only [hasComponent] using h)
  | .kind _, _, h | .equals _, _, h | .bound _ _, _, h | .length _, _, h | .disj _, _, h
  | .neg _, _, h | .bvar _, _, h | .ref _, _, h | .var _, _, h | .any, _, h | .never, _, h => by
    simp [hasComponent] at h

section Check

variable {unrolled : Nat → Value → Constraint → Bool × Nat}

def RejectsNumber (x : Number) (unrolled : Nat → Value → Constraint → Bool × Nat) : Prop :=
  ∀ budget body, hasComponent (.fix body) → (unrolled budget (.number x) (.fix body)).1 = false

mutual

theorem checkWith_number (hu : RejectsNumber x unrolled) : ∀ {c : Constraint} (budget : Nat),
    c.hasComponent → (checkWith unrolled budget (.number x) c).1 = false
  | .field _ _, _, _ | .elements _, _, _ | .elementAt _ _, _, _ => rfl
  | .conj cs, budget, h => by
    rw [checkWith]
    exact checkConj_number hu budget (by simpa only [hasComponent] using h)
  | .fix body, budget, h => hu budget body h
  | .kind _, _, h | .equals _, _, h | .bound _ _, _, h | .length _, _, h | .disj _, _, h
  | .neg _, _, h | .bvar _, _, h | .ref _, _, h | .var _, _, h | .any, _, h | .never, _, h => by
    simp [hasComponent] at h

theorem checkConj_number (hu : RejectsNumber x unrolled) : ∀ {cs : List Constraint} (budget : Nat),
    haveComponent cs → (checkConj unrolled budget (.number x) cs).1 = false
  | [], _, h => by simp [haveComponent] at h
  | c :: cs, budget, h => by
    rw [haveComponent, Bool.or_eq_true] at h
    rw [checkConj]
    split
    · next next hc =>
      refine checkConj_number hu next (h.resolve_left fun h => ?_)
      have hfalse := checkWith_number hu budget h
      simp [hc] at hfalse
    · rfl

end

end Check

lemma check_number (depth : Nat) : ∀ (budget : Nat) {c : Constraint}, c.hasComponent →
    (check depth budget (.number x) c).1 = false := by
  induction depth with
  | zero => exact fun budget _ h => checkWith_number (fun _ _ _ => rfl) budget h
  | succ depth ih =>
    refine fun budget _ h => checkWith_number (fun budget body hb => ?_) budget h
    split_ifs
    · rfl
    · exact ih _ (hasComponent_replaceVars 0 (by simpa only [hasComponent] using hb))

lemma admits_iff_means {c : Constraint} (hc : Conjunct p c) (ho : c.isOpen = false)
    {y : Number} (h : y.same x) (ρ : Valuation) :
    c.admits (.number x) ↔ c.Means ρ (.number y) := by
  have hpart (hh : c.hasComponent) : c.admits (.number x) ↔ c.Means ρ (.number y) :=
    iff_of_false (by simp [admits, check_number maxUnrolls maxUnrolls hh])
      (not_means_number_of_hasComponent hh)
  obtain ⟨hs, hf⟩ := hc
  cases c with
  | kind k | never => exact admits_iff_holds rfl fun _ => True
  | equals w =>
    refine (admits_iff_holds rfl fun _ => True).trans ?_
    exact (Value.same_left_comm (v := .number y) (w := .number x) rfl h).symm
  | bound r n =>
    refine (admits_iff_holds rfl fun _ => True).trans ?_
    simp [Holds, Means, Comparison.holds_congr r n h]
  | field | elements | elementAt => exact hpart rfl
  | fix body =>
    obtain ⟨_, _, hh, _⟩ := hs
    exact hpart (by simpa only [hasComponent] using hh rfl)
  | any | conj => simp [Constraint.isFlat] at hf
  | bvar => simp [isOpen] at ho
  | length | disj | neg | ref | var => exact hs.elim

lemma absorb_meet {cs : List Constraint} (hcs : ∀ c ∈ cs, Conjunct p c)
    (hx : .equals (.number x) ∈ cs) (hsame : ∀ w, .equals w ∈ cs → w.same (.number x)) :
    IsMeet p (absorb (.number x) cs) cs := by
  have hnum {ρ : Valuation} {v : Value} (h : (equals (.number x)).Means ρ v) :
      ∃ y, v = .number y ∧ y.same x := by
    cases v <;> simp_all [Means, Value.same]
  rw [absorb]
  split_ifs with hall
  · refine IsMeet.of_coincide (finishConj_meet ?_ ?_) fun ρ v _ => ?_
    · refine List.forall_mem_cons.mpr ⟨(hcs _ hx).stands, fun c hc => ?_⟩
      exact (hcs c (List.mem_of_mem_filter (List.mem_of_mem_filter hc))).stands
    · refine Nat.le_trans (Nat.le_of_eq (List.countP_eq_zero.mpr ?_)) (Nat.zero_le 1)
      refine List.forall_mem_cons.mpr ⟨by simp [isElements], fun c hc => ?_⟩
      have hopen := (List.mem_filter.mp hc).2
      cases c <;> simp_all [isOpen, isElements]
    · rw [List.forall_mem_cons]
      refine ⟨fun h => ⟨h _ hx, fun c hc => ?_⟩, fun h c hc => ?_⟩
      · exact h c (List.mem_of_mem_filter (List.mem_of_mem_filter hc))
      · obtain ⟨hv, hopen⟩ := h
        obtain ⟨y, rfl, hy⟩ := hnum hv
        cases hl : c.literal? with
        | some w =>
          obtain rfl := eq_equals_of_literal? hl
          exact (Value.same_right_comm (v := w) (by
            obtain ⟨z, rfl, _⟩ := (hcs _ hc).stands
            rfl) (hsame w hc)).mpr hv
        | none =>
          have hrest := List.mem_filter (p := fun c => c.literal?.isNone).mpr ⟨hc, by simp [hl]⟩
          cases ho : c.isOpen with
          | true => exact hopen c (List.mem_filter.mpr ⟨hrest, ho⟩)
          | false =>
            exact (admits_iff_means (hcs c hc) ho hy ρ).mp (List.all_eq_true.mp hall c
              (List.mem_filter.mpr ⟨hrest, by simp [ho]⟩))
  · refine Conflict.isMeet fun ρ v _ h => hall (List.all_eq_true.mpr fun c hc => ?_)
    obtain ⟨hrest, ho⟩ := List.mem_filter.mp hc
    have hm := List.mem_of_mem_filter hrest
    obtain ⟨y, rfl, hy⟩ := hnum (h _ hx)
    exact (admits_iff_means (hcs c hm) (by simpa using ho) hy ρ).mpr (h c hm)

end Numbers

lemma resolveNegations_of_positive (conj : List Constraint → Constraint)
    (entails : Constraint → Constraint → Bool) {cs : List Constraint}
    (h : ∀ c ∈ cs, c.Stands true p) : resolveNegations conj entails cs = some cs := by
  have hpos : cs.filter (fun c => !c.isNeg) = cs := List.filter_eq_self.mpr fun c hc => by
    have hs := h c hc
    cases c <;> simp_all [isNeg, Stands]
  simp [resolveNegations, hpos]

lemma conjoinFlat_meet {conj conjPlain : List Constraint → Constraint} (hconj : Combines conj)
    (entails : Constraint → Constraint → Bool) (hr : p.InRange) {flat : List Constraint}
    (hflat : ∀ c ∈ flat, Conjunct p c) :
    IsMeet p (conjoinFlat conj conjPlain entails flat) flat := by
  have hstands : ∀ c ∈ flat, c.Stands true p := fun c hc => (hflat c hc).stands
  unfold conjoinFlat
  cases hm : mergeStructure conj conjPlain flat with
  | none => exact (mergeStructure_conflict hconj hr hstands hm).isMeet
  | some cs =>
    obtain ⟨hcs, hsame⟩ :=
      mergeStructure_coincide hconj hr hstands (fun c hc => (hflat c hc).isFlat) hm
    have hcount := countP_mergeStructure_le hm
    refine IsMeet.of_coincide ?_ hsame
    simp only
    cases hk : commonKind none cs with
    | none =>
      refine Conflict.isMeet fun ρ v hv hall => ?_
      obtain ⟨_, he, _⟩ := exists_commonKind_of_means hall
      simp [hk] at he
    | some common =>
      -- the conjunction with its bounds collapsed, if it is about a number
      have hcollapse : ((if common == some .number then collapseBounds cs else some cs) = none →
            Conflict p cs) ∧
          ∀ ds, (if common == some .number then collapseBounds cs else some cs) = some ds →
            (∀ c ∈ ds, Conjunct p c) ∧ ds.countP isElements ≤ 1 ∧ Coincide p cs ds ∧
              ∀ k, .kind k ∈ ds → .kind k ∈ cs := by
        split_ifs with hn
        · obtain rfl := eq_of_beq hn
          have hex := (exists_kind?_of_commonKind hk).resolve_left (by simp)
          have hT := hasProperBounds_conjunct p
          refine ⟨fun h ρ v _ => not_forall_of_collapseBounds hT hcs hex (readsValue_means ρ v) h,
            fun ds hds => ?_⟩
          obtain ⟨ht, hc⟩ := collapseBounds_isOf hT hcs hds
          exact ⟨ht, Nat.le_trans hc hcount,
            fun ρ v _ => forall_collapseBounds hT hcs hex (readsValue_means ρ v) hds,
            fun k => kind_mem_of_collapseBounds hds⟩
        · refine ⟨by simp, fun ds hds => ?_⟩
          obtain rfl := Option.some.inj hds
          exact ⟨hcs, hcount, fun _ _ _ => Iff.rfl, fun _ h => h⟩
      simp only
      cases hc : (if common == some .number then collapseBounds cs else some cs) with
      | none => exact (hcollapse.1 hc).isMeet
      | some ds =>
        obtain ⟨hds, hone, hcoincide, hkinds⟩ := hcollapse.2 ds hc
        have hst : ∀ c ∈ ds, c.Stands true p := fun c hc => (hds c hc).stands
        simp only
        cases hl : ds.filterMap literal? with
        | cons v vs =>
          obtain ⟨hv, hmem⟩ := literals_spec hl
          obtain ⟨x, rfl, _⟩ := hst _ hv
          simp only
          split_ifs with hall
          · have hsame : ∀ w, .equals w ∈ ds → w.same (.number x) := fun w hw =>
              List.all_eq_true.mp hall w ((hmem w).mp hw)
            exact (absorb_meet hds hv hsame).of_coincide hcoincide
          · refine Conflict.isMeet (Conflict.of_coincide (fun ρ u hu hallu => hall ?_) hcoincide)
            refine List.all_eq_true.mpr fun w hw => ?_
            have hw' := (hmem w).mpr hw
            obtain ⟨z, rfl, _⟩ := hst _ hw'
            have huz : u.same (.number z) := hallu _ hw'
            have hux : u.same (.number x) := hallu _ hv
            have huw : u.isWellFormed := by cases u <;> simp_all [Value.same, Value.isWellFormed]
            exact Value.same_trans (Value.same_symm huw huz) hux
        | nil =>
          simp only [resolveNegations_of_positive conjPlain entails hst]
          exact finishKinds_meet hk hst hone hcoincide hkinds

end Stagewise.Constraint
