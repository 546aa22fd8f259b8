import Stagewise.Proofs.NestedConjunction
import Stagewise.Proofs.Normal

/-! Normal forms and entailment where recursive constraints stand inside one another. Normalising
keeps the meaning under every valuation. What the examination of a pair finds holds by induction on
the height of the value: a pair that is assumed is met again below a part, or nowhere, because
unfolding leads to sites where it is nested too deep to stand. -/

set_option autoImplicit false

namespace Stagewise.Constraint

variable {tidy : Bool} {p : Site} {n : Nat}

/-! ### Normal forms -/

structure Tidies (p : Site) (d c : Constraint) : Prop where
  stands : d.Stands true p
  means : ∀ (ρ : Valuation) (v : Value), v.height ≤ p.room → (d.Means ρ v ↔ c.Means ρ v)

lemma Tidies.refl {c : Constraint} (h : c.Stands true p) : Tidies p c c :=
  ⟨h, fun _ _ _ => Iff.rfl⟩

lemma Tidies.trans {c d e : Constraint} (h : Tidies p e d) (k : Tidies p d c) : Tidies p e c :=
  ⟨h.stands, fun ρ v hv => (h.means ρ v hv).trans (k.means ρ v hv)⟩

def KeepsTidy (normal : Constraint → Constraint) : Prop :=
  ∀ (p : Site) (c : Constraint), p.InRange → c.Stands true p → Tidies p (normal c) c

/-- What holds within an allowance. The constraint to normalise is either within the allowance or
tidy already. -/
structure NormalAt (n : Nat) : Prop where
  normalize : ∀ (p : Site) (c : Constraint), p.InRange → c.Stands false p →
    c.size ≤ n ∨ c.Stands true p → Tidies p (normalize n c) c
  conjunction : ∀ unroll, Combines (conjunction n unroll)

lemma normalAt_zero : NormalAt 0 where
  normalize p c _ _ h := .refl (h.resolve_left (by have := size_pos c; omega))
  conjunction unroll p cs _ hcs := by
    rw [Constraint.conjunction]
    refine ⟨stands_conj.mpr ⟨fun _ => ?_, ?_⟩, fun ρ v _ => by simp⟩
    · simp [List.countP_map, Function.comp_def, isElements]
    · refine List.forall_mem_map.mpr fun c hc => stands_conj.mpr ⟨fun _ => ?_, ?_⟩
      · exact Nat.le_trans List.countP_le_length (by simp)
      · simpa using hcs c hc

lemma distribute?_eq_none (conj disj : List Constraint → Constraint) {flat : List Constraint}
    (h : ∀ c ∈ flat, c.Stands true p) : distribute? conj disj flat = none := by
  have hnone : flat.filter isDisj = [] := List.filter_eq_nil_iff.mpr fun c hc => by
    have hs := h c hc
    cases c <;> simp_all [isDisj, Stands]
  simp [distribute?, hnone]

lemma unfold_tidies {body : Constraint} (hr : p.InRange) (h : (fix body).Stands true p) :
    Tidies p (unfold (fix body)) (fix body) := by
  obtain ⟨k, hk, hself, hb⟩ := h
  refine ⟨(stands_unfold hself hb hr hk).mono (.of_depth_le (p := p) (Nat.le_of_lt hk)),
    fun ρ v hv => means_unfold hself hb hr hk hv⟩

section Part

variable {q : Component} {wrap : Constraint → Constraint} {c d : Constraint}

lemma part_tidies (wrap : Constraint → Constraint)
    (hmeans : ∀ c ρ v, (wrap c).Means ρ v ↔ q.Has (c.Means ρ) v)
    (hstands : ∀ c, (∀ r < p.room, c.Stands true (p.below r)) → (wrap c).Stands true p)
    (h : ∀ r < p.room, Tidies (p.below r) d c) : Tidies p (wrap d) (wrap c) := by
  refine ⟨hstands d fun r hr => (h r hr).stands, fun ρ v hv => ?_⟩
  rw [hmeans, hmeans]
  exact Component.has_congr fun w hw =>
    (h w.height (Nat.lt_of_lt_of_le hw hv)).means ρ w (Nat.le_refl _)

lemma finishPart_tidies (hnever : ∀ ρ v, ¬ (wrap .never).Means ρ v)
    (h : Tidies p (wrap d) (wrap c)) : Tidies p (finishPart wrap d) (wrap c) := by
  rw [finishPart]
  split_ifs with hn
  · rw [eq_never_of_isNever hn] at h
    exact ⟨trivial, fun ρ v hv => (iff_of_false id (hnever ρ v)).trans (h.means ρ v hv)⟩
  · exact h

end Part

namespace NormalAt

variable (h : NormalAt n)
include h

lemma keepsTidy : KeepsTidy (Constraint.normalize n) :=
  fun p c hr hc => h.normalize p c hr hc.of_tidy (Or.inr hc)

lemma normalize_unfold {c : Constraint} (hr : p.InRange) (hc : c.Stands true p) :
    Tidies p (if c.isUnrollable then Constraint.normalize n c.unfold else c) c := by
  split_ifs with hu
  · cases c <;> simp only [isUnrollable, Bool.false_eq_true] at hu
    have hunfold := unfold_tidies hr hc
    exact (h.keepsTidy p _ hr hunfold.stands).trans hunfold
  · exact .refl hc

lemma conjunction_succ (unroll : Bool) : Combines (Constraint.conjunction (n + 1) unroll) := by
  intro p cs hr hcs
  have hflat : ∀ c ∈ flattenConjList [] cs, Conjunct p c :=
    forall_mem_flattenConjList (T := (·.Stands true p)) (fun h => (stands_conj.mp h).2)
      (fun hs hf => ⟨hs, hf⟩) (by simp) hcs
  have hst : ∀ c ∈ flattenConjList [] cs, c.Stands true p := fun c hc => (hflat c hc).stands
  have hsame : Coincide p cs (flattenConjList [] cs) := fun ρ v hv =>
    (forall_flatten (isConjunctive_means ρ hv) hcs).symm
  refine IsMeet.of_coincide ?_ hsame
  rw [Constraint.conjunction]
  split_ifs with hnever hone hfix
  · obtain ⟨c, hc, hn⟩ := List.any_eq_true.mp hnever
    refine Conflict.isMeet fun ρ v hv hall => ?_
    have hcv := hall c hc
    rwa [eq_never_of_isNever hn] at hcv
  · exact finishConj_meet hst (Nat.le_trans List.countP_le_length hone)
  · have hm := h.conjunction false p _ hr (List.forall_mem_map.mpr fun c hc =>
      (h.normalize_unfold hr (hst c hc)).stands)
    refine ⟨hm.stands, fun ρ v hv => (hm.means ρ v hv).trans ?_⟩
    rw [List.forall_mem_map]
    exact forall₂_congr fun c hc => (h.normalize_unfold hr (hst c hc)).means ρ v hv
  · rw [distribute?_eq_none _ _ hst]
    exact conjoinFlat_meet (h.conjunction unroll) _ hr hflat

lemma normalize_conj {cs : List Constraint} (hr : p.InRange)
    (hcs : ∀ c ∈ cs, c.Stands false p ∧ (c.size ≤ n ∨ c.Stands true p)) :
    Tidies p (Constraint.normalize (n + 1) (.conj cs)) (.conj cs) := by
  have hparts := fun c hc => h.normalize p c hr (hcs c hc).1 (hcs c hc).2
  have hm := h.conjunction true p (cs.map (Constraint.normalize n)) hr
    (List.forall_mem_map.mpr fun c hc => (hparts c hc).stands)
  refine ⟨hm.stands, fun ρ v hv => (hm.means ρ v hv).trans ?_⟩
  rw [List.forall_mem_map, means_conj]
  exact forall₂_congr fun c hc => (hparts c hc).means ρ v hv

lemma normalize_fix {body : Constraint} {k : Nat} (hr : p.InRange) (hk : k < p.depth)
    (hb : body.Stands false (p.inside k))
    (hfit : body.size ≤ n ∨ body.Stands true (p.inside k)) :
    Tidies p (Constraint.normalize (n + 1) (.fix body)) (.fix body) := by
  have hm := h.normalize _ body (hr.inside hk) hb hfit
  obtain ⟨hs, hf⟩ := finishFix_stands hr hk hm.stands
  refine ⟨hs, fun ρ v hv => (hf ρ v hv).trans ?_⟩
  exact means_fix_congr hm.stands hm.means hv

lemma normalize_succ {c : Constraint} (hr : p.InRange) (hc : c.Stands false p)
    (hfit : c.size ≤ n + 1 ∨ c.Stands true p) : Tidies p (Constraint.normalize (n + 1) c) c := by
  have hpart {d : Constraint} (hs : c.size = d.size + 1)
      (hd : ∀ r < p.room, d.Stands false (p.below r))
      (ht : c.Stands true p → ∀ r < p.room, d.Stands true (p.below r)) :
      ∀ r < p.room, Tidies (p.below r) (Constraint.normalize n d) d := fun r hlt =>
    h.normalize _ d (hr.below hlt) (hd r hlt) (hfit.imp (by omega) fun hc => ht hc r hlt)
  cases c with
  | conj cs =>
    refine h.normalize_conj hr fun d hd => ⟨(stands_conj.mp hc).2 d hd, ?_⟩
    refine hfit.imp (fun hle => ?_) fun ht => (stands_conj.mp ht).2 d hd
    have := size_le_sizeList hd
    rw [size] at hle
    omega
  | field name d =>
    refine finishPart_tidies ?_ ?_
    · rintro ρ v ⟨_, _, _, _, hf⟩
      exact hf
    exact part_tidies (.field name) (q := .field name) (fun _ _ _ => Iff.rfl) (fun _ hs => hs)
      (hpart (d := d) rfl hc id)
  | elementAt i d =>
    refine finishPart_tidies ?_ ?_
    · rintro ρ v ⟨_, _, _, _, hf⟩
      exact hf
    exact part_tidies (.elementAt i) (q := .item i) (fun _ _ _ => Iff.rfl) (fun _ hs => hs)
      (hpart (d := d) rfl hc id)
  | elements d =>
    exact part_tidies .elements (q := .items) (fun _ _ _ => Iff.rfl) (fun _ hs => hs)
      (hpart (d := d) rfl hc id)
  | fix body =>
    rcases hfit with hs | ht
    · obtain ⟨k, hk, _, hb⟩ := hc
      exact h.normalize_fix hr hk hb (Or.inl (Nat.le_of_succ_le_succ hs))
    · obtain ⟨k, hk, _, hb⟩ := ht
      exact h.normalize_fix hr hk hb.of_tidy (Or.inr hb)
  | bound r x =>
    rw [Constraint.normalize, if_neg (by simp [show x.isNaN = false from hc])]
    exact .refl hc
  | kind | equals | any | never | bvar => exact .refl hc
  | length | disj | neg | ref | var => exact hc.elim

end NormalAt

theorem normalAt (n : Nat) : NormalAt n := by
  induction n with
  | zero => exact normalAt_zero
  | succ n ih =>
    exact ⟨fun p c hr hc hfit => ih.normalize_succ hr hc hfit, ih.conjunction_succ⟩

lemma simplify_tidies {c : Constraint} (hr : p.InRange) (hc : c.Stands false p) :
    Tidies p c.simplify c :=
  (normalAt _).normalize p c hr hc (Or.inl (size_le_allowance c.size))

/-! ### Depth -/

theorem Stands.depth_le : ∀ {c : Constraint} {p : Site}, c.Stands tidy p → c.depth ≤ p.depth
  | .conj cs, _, h => by
    rw [depth, depthList_le_iff]
    exact fun c hc => (allStand_iff.mp h.2 c hc).depth_le
  | .fix body, _, h => by
    obtain ⟨k, hk, _, hb⟩ := h
    rw [depth]
    exact Nat.lt_of_le_of_lt (Stands.depth_le (c := body) hb) hk
  | .kind _, _, _ | .equals _, _, _ | .bound _ _, _, _ | .field _ _, _, _ | .elements _, _, _
  | .elementAt _ _, _, _ | .bvar _, _, _ | .any, _, _ | .never, _, _ => Nat.zero_le _
  | .length _, _, h | .disj _, _, h | .neg _, _, h | .ref _, _, h | .var _, _, h => h.elim

theorem Stands.at_depth : ∀ {c : Constraint} {p q : Site} {d : Nat}, c.Stands tidy p →
    (∀ k ∈ p.scope, p.depth < k) → p.Le q → c.depth ≤ d → c.Stands tidy (q.withDepth d)
  | .field _ c, _, _, _, h, _, hpq, _ | .elements c, _, _, _, h, _, hpq, _
  | .elementAt _ c, _, _, _, h, _, hpq, _ =>
    fun r hr => Stands.mono (c := c) (h r (Nat.lt_of_lt_of_le hr hpq.room)) (hpq.below r)
  | .conj cs, _, _, _, h, hs, hpq, hd => by
    rw [depth, depthList_le_iff] at hd
    exact ⟨h.1, h.2.imp fun c hc h => h.at_depth hs hpq (hd c hc)⟩
  | .fix body, p, q, d, h, hs, hpq, hd => by
    obtain ⟨k, hk, hself, hb⟩ := h
    have hle := hb.depth_le
    refine ⟨body.depth, hd, hself, Stands.at_depth (c := body) hb ?_ ?_ (Nat.le_refl _)
      (q := (q.inside body.depth).withDepth k)⟩
    · exact List.forall_mem_cons.mpr ⟨Nat.lt_succ_self k, fun j hj => Nat.lt_trans hk (hs j hj)⟩
    · refine ⟨hpq.limit, hpq.room, Nat.le_refl _, fun i j hj => ?_⟩
      cases i with
      | zero =>
        obtain rfl : k + 1 = j := Option.some.inj hj
        exact ⟨body.depth + 1, Nat.succ_le_succ hle, rfl⟩
      | succ i => exact hpq.scope i j hj
  | .bvar i, _, _, _, h, hs, _, _ => by
    obtain ⟨k, hk, hi⟩ := h
    exact absurd (hs k (List.mem_of_getElem? hi)) (Nat.not_lt.mpr hk)
  | .kind _, _, _, _, _, _, _, _ | .any, _, _, _, _, _, _, _
  | .never, _, _, _, _, _, _, _ => trivial
  | .equals _, _, _, _, h, _, _, _ | .bound _ _, _, _, _, h, _, _, _ => h
  | .length _, _, _, _, h, _, _, _ | .disj _, _, _, _, h, _, _, _ | .neg _, _, _, _, h, _, _, _
  | .ref _, _, _, _, h, _, _, _ | .var _, _, _, _, h, _, _, _ => h.elim

/-! ### Closed constraints -/

def Site.closed (limit room depth : Nat) : Site := ⟨limit, room, depth, []⟩

variable {limit s : Nat} {ρ : Valuation} {a b : Constraint}

lemma Stands.lower {c : Constraint} {t d : Nat} (h : c.Stands tidy (.closed limit s d))
    (hts : t ≤ s) : c.Stands tidy (.closed limit t d) :=
  h.mono ⟨rfl, hts, Nat.le_refl _, fun _ _ hi => by simp [Site.closed] at hi⟩

def Included (ρ : Valuation) (s : Nat) (a b : Constraint) : Prop :=
  ∀ v : Value, v.height < s → a.Means ρ v → b.Means ρ v

lemma Included.mono {t : Nat} (h : Included ρ s a b) (hts : t ≤ s) : Included ρ t a b :=
  fun v hv => h v (Nat.lt_of_lt_of_le hv hts)

def FindsIncluded (limit : Nat) (ρ : Valuation) (s : Nat)
    (entails : Constraint → Constraint → Bool) : Prop :=
  ∀ t < s, ∀ a b : Constraint, a.Stands true (.closed limit t limit) →
    b.Stands true (.closed limit t limit) → entails a b → Included ρ (t + 1) a b

section Atoms

variable {entails : Constraint → Constraint → Bool} (hent : FindsIncluded limit ρ s entails)
include hent

lemma FindsIncluded.has {q : Component} {c d : Constraint}
    (hc : ∀ r < s, c.Stands true (.closed limit r limit))
    (hd : ∀ r < s, d.Stands true (.closed limit r limit)) (h : entails c d) {v : Value}
    (hv : v.height ≤ s) (hav : q.Has (c.Means ρ) v) : q.Has (d.Means ρ) v := by
  refine hav.mono fun w hw hcw => ?_
  have hlt := Nat.lt_of_lt_of_le hw hv
  exact hent w.height hlt c d (hc _ hlt) (hd _ hlt) h w (Nat.lt_succ_self _) hcw

end Atoms

theorem Stands.hasProperUnions : ∀ {c : Constraint} {p : Site}, c.Stands tidy p →
    c.hasProperUnions false
  | .conj cs, _, h => by
    rw [Constraint.hasProperUnions, haveProperUnions_iff]
    exact fun c hc => (allStand_iff.mp h.2 c hc).hasProperUnions
  | .disj _, _, h => h.elim
  | .equals _, _, _ | .bound _ _, _, _ | .kind _, _, _ | .field _ _, _, _ | .elements _, _, _
  | .elementAt _ _, _, _ | .length _, _, _ | .neg _, _, _ | .any, _, _ | .never, _, _ | .fix _, _, _
  | .bvar _, _, _ | .ref _, _, _ | .var _, _, _ => rfl

lemma Stands.describes {c : Constraint} {p : Site} {v : Value} (hc : c.Stands tidy p)
    (h : c.Means ρ v) : (Interval.of c).Describes v :=
  describes_of_hasProperUnions (S := fun c => c.Stands tidy p ∧ c.Means ρ v)
    ⟨And.right, And.right, fun h c hc => ⟨allStand_iff.mp h.1.2 c hc, means_conj.mp h.2 c hc⟩,
      fun h => h.1.elim⟩ hc.hasProperUnions ⟨hc, h⟩

lemma means_of_isSubset {c goal : Constraint} {want : Interval} (hc : c.Stands tidy p)
    (hg : goal.isNumeric) (hw : Interval.ofAtom? goal = some want)
    (h : (Interval.of c).isSubset want) {x : Number} (hx : c.Means ρ (.number x)) :
    goal.Means ρ (.number x) := by
  have hkind : goal.kind? = some .number := by
    unfold isNumeric at hg
    split at hg <;> simp_all [kind?, Value.kind]
  have hread := (readsValue_means ρ (.number x)).reads rfl
  exact (hread.iff (readsNumber_holds (fun _ => True) x) hkind).mpr
    (holds_of_describes (hc.describes hx) hg hw h)

section Conjuncts

variable {entails : Constraint → Constraint → Bool} (hent : FindsIncluded limit ρ s entails)
  {da db : Nat} {cs : List Constraint}
  (hcs : (Constraint.conj cs).Stands true (.closed limit s da))
include hent hcs

lemma conjEntails_item {conj : List Constraint → Constraint} (hconj : Combines conj)
    (hr : (Site.closed limit s da).InRange) {index : Nat} {d : Constraint}
    (hd : (elementAt index d).Stands true (.closed limit s db))
    (hlen : 2 ≤ (statementsAt index cs).length)
    (h : entails (conj ((statementsAt index cs).filter fun c => !c.isAny)) d) :
    Included ρ (s + 1) (.conj cs) (elementAt index d) := by
  intro v hv hall
  rw [means_conj] at hall
  obtain ⟨hone, hst⟩ := stands_conj.mp hcs
  have hex : ∃ c, .elementAt index c ∈ cs := by
    by_contra hno
    have hle := length_statementsAt_le (not_exists.mp hno)
    have := hone rfl
    omega
  have hparts : ∀ r < s, ∀ c ∈ (statementsAt index cs).filter (fun c => !c.isAny),
      c.Stands true (.closed limit r limit) := by
    intro r hlt c hc
    rcases mem_statementsAt.mp (List.mem_of_mem_filter hc) with hc | hc
    · exact hst _ hc r hlt
    · exact hst _ hc r hlt
  have hmeet (r : Nat) (hlt : r < s) :=
    hconj (.closed limit r limit) _ (hr.below hlt) (hparts r hlt)
  refine hent.has (fun r hlt => (hmeet r hlt).stands) hd h (Nat.lt_succ_iff.mp hv) ?_
  obtain ⟨c, hc⟩ := hex
  obtain ⟨items, w, rfl, hw, _⟩ := hall _ hc
  have hlt : w.height < s := Nat.lt_of_lt_of_le
    (Value.height_lt_of_mem (List.mem_of_getElem? hw)) (Nat.lt_succ_iff.mp hv)
  refine ⟨items, w, rfl, hw, ((hmeet w.height hlt).means ρ w (Nat.le_refl _)).mpr fun e he => ?_⟩
  rcases mem_statementsAt.mp (List.mem_of_mem_filter he) with he | he
  · obtain ⟨_, w', heq, hw', he⟩ := hall _ he
    obtain rfl := Value.array.inj heq
    exact Option.some.inj (hw.symm.trans hw') ▸ he
  · obtain ⟨_, heq, he⟩ := hall _ he
    obtain rfl := Value.array.inj heq
    exact he w (List.mem_of_getElem? hw)

lemma conjEntails_included {conj : List Constraint → Constraint} (hconj : Combines conj)
    (hr : (Site.closed limit s da).InRange) {goal : Constraint}
    (hg : goal.Stands true (.closed limit s db)) (h : conjEntails conj entails cs goal) :
    Included ρ (s + 1) (.conj cs) goal := by
  obtain ⟨_, hst⟩ := stands_conj.mp hcs
  unfold conjEntails at h
  split at h
  · cases hn : tupleLength? cs with
    | none => simp [hn] at h
    | some n =>
      obtain ⟨x, hx, _⟩ := mem_of_tupleLength? hn
      exact (hst _ hx).elim
  · next index d =>
    simp only [Bool.and_eq_true, decide_eq_true_eq] at h
    exact conjEntails_item hent hcs hconj hr hg h.1 h.2
  · exact hg.elim
  · intro v hv hall
    simp only [Bool.and_eq_true, List.any_eq_true] at h
    obtain ⟨⟨hn, c, hc, hk⟩, hsub⟩ := h
    obtain ⟨x, rfl⟩ := exists_number_of_means (eq_of_beq hk) (means_conj.mp hall c hc)
    cases hw : Interval.ofAtom? goal with
    | none => simp [hw] at hsub
    | some want => exact means_of_isSubset hcs hn hw (by simpa [hw] using hsub) hall

end Conjuncts

lemma atomEntails_included {entails : Constraint → Constraint → Bool}
    (hent : FindsIncluded limit ρ s entails) {da db : Nat}
    (ha : a.Stands true (.closed limit s da)) (hb : b.Stands true (.closed limit s db))
    (h : atomEntails entails a b) : Included ρ (s + 1) a b := by
  intro v hv hav
  have hv := Nat.lt_succ_iff.mp hv
  unfold atomEntails at h
  split at h
  · next want =>
    cases hk : a.kind? with
    | none => simp [hk] at h
    | some k => exact Kind.refines_trans (kind_refines_of_means hk hav) (by simpa [hk] using h)
  · next m c n d =>
    simp only [Bool.and_eq_true, beq_iff_eq] at h
    obtain ⟨rfl, h⟩ := h
    exact hent.has ha hb h hv hav
  · exact hent.has ha hb h hv hav
  · exact ha.elim
  · next i c j d =>
    simp only [Bool.and_eq_true, beq_iff_eq] at h
    obtain ⟨rfl, h⟩ := h
    exact hent.has ha hb h hv hav
  · split at h
    · next want hn hw =>
      obtain ⟨x, rfl, hx⟩ := hav
      exact means_of_isSubset ha hn hw h ⟨x, rfl, hx⟩
    · simp at h
  · simp at h

/-! ### One step -/

/-- The assumed pairs hold of the values below a height. A pair that may be met at this height is
known to hold there too. -/
def Assumable (limit : Nat) (ρ : Valuation) (s da db : Nat) (assumed : Assumptions) : Prop :=
  ∀ r ∈ assumed, (∃ d, r.1.Stands true (.closed limit s d)) ∧
    (∃ d, r.2.Stands true (.closed limit s d)) ∧ Included ρ s r.1 r.2 ∧
      (da < r.1.depth ∨ db < r.2.depth ∨ Included ρ (s + 1) r.1 r.2)

def IncludesUnder (limit : Nat) (entails : Assumptions → Constraint → Constraint → Bool) : Prop :=
  ∀ (ρ : Valuation) (s da db : Nat) (assumed : Assumptions) (a b : Constraint),
    (Site.closed limit s da).InRange → (Site.closed limit s db).InRange →
      Assumable limit ρ s da db assumed → a.Stands true (.closed limit s da) →
        b.Stands true (.closed limit s db) → entails assumed a b → Included ρ (s + 1) a b

section Step

variable {da db : Nat} {assumed : Assumptions}
  {entails : Assumptions → Constraint → Constraint → Bool} {normal : Constraint → Constraint}

lemma Assumable.lower {t : Nat} (h : Assumable limit ρ s da db assumed) (hts : t < s)
    (da' db' : Nat) : Assumable limit ρ t da' db' assumed := by
  intro r hr
  obtain ⟨⟨d, hx⟩, ⟨e, hy⟩, hv, _⟩ := h r hr
  exact ⟨⟨d, hx.lower (Nat.le_of_lt hts)⟩, ⟨e, hy.lower (Nat.le_of_lt hts)⟩,
    hv.mono (Nat.le_of_lt hts), Or.inr (Or.inr (hv.mono hts))⟩

lemma IncludesUnder.findsIncluded (hent : IncludesUnder limit entails)
    (h : Assumable limit ρ s da db assumed) (hr : (Site.closed limit s da).InRange) :
    FindsIncluded limit ρ s (entails assumed) := fun t ht a b ha hb he =>
  hent ρ t limit limit assumed a b (hr.below ht) (hr.below ht) (h.lower ht _ _) ha hb he

lemma unroll_tidies (hnormal : KeepsTidy normal) (hr : (Site.closed limit s da).InRange)
    (ha : a.Stands true (.closed limit s da)) : ∃ d ≤ da,
      Tidies (.closed limit s d) (entailsStep.unroll normal a) a ∧ (a.isFix → d < a.depth) := by
  cases a with
  | fix body =>
    have hle := ha.depth_le
    have hat : (fix body).Stands true (.closed limit s (fix body).depth) :=
      ha.at_depth (by simp [Site.closed]) ⟨rfl, Nat.le_refl _, Nat.le_refl _,
        fun _ k hk => ⟨k, Nat.le_refl _, hk⟩⟩ (Nat.le_refl _)
    have hr' : (Site.closed limit s (fix body).depth).InRange := by
      simp only [Site.InRange, Site.closed] at hr hle ⊢
      omega
    obtain ⟨k, hk, hself, hb⟩ := hat
    have hrk : (Site.closed limit s k).InRange := by
      simp only [Site.InRange, Site.closed] at hr' hk ⊢
      omega
    have hn := hnormal (.closed limit s k) _ hrk (stands_unfold hself hb hr' hk)
    exact ⟨k, Nat.le_trans (Nat.le_of_lt hk) hle, ⟨hn.stands, fun ρ v hv =>
      (hn.means ρ v hv).trans (means_unfold hself hb hr' hk hv)⟩, fun _ => hk⟩
  | _ => exact ⟨da, Nat.le_refl _, .refl ha, by simp [isFix]⟩

lemma included_of_assumed (hready : Assumable limit ρ s da db assumed)
    (ha : a.Stands true (.closed limit s da)) (hb : b.Stands true (.closed limit s db))
    (h : assumed.any fun (x, y) => x == a && y == b) : Included ρ (s + 1) a b := by
  obtain ⟨⟨x, y⟩, hm, hxy⟩ := List.any_eq_true.mp h
  simp only [Bool.and_eq_true] at hxy
  obtain ⟨⟨_, hx⟩, ⟨_, hy⟩, _, hmet⟩ := hready _ hm
  rcases hmet with hd | hd | hvalid
  · rw [depth_eq_of_same hxy.1] at hd
    exact absurd ha.depth_le (Nat.not_le.mpr hd)
  · rw [depth_eq_of_same hxy.2] at hd
    exact absurd hb.depth_le (Nat.not_le.mpr hd)
  · intro v hv hav
    have hle := Nat.lt_succ_iff.mp hv
    exact (hy.means_of_same hxy.2 hle).mp (hvalid v hv ((hx.means_of_same hxy.1 hle).mpr hav))

variable (hnormal : KeepsTidy normal) (hent : IncludesUnder limit entails)
include hnormal hent

lemma unrolled_included_step (hra : (Site.closed limit s da).InRange)
    (hrb : (Site.closed limit s db).InRange) (ha : a.Stands true (.closed limit s da))
    (hb : b.Stands true (.closed limit s db)) (hfix : a.isFix ∨ b.isFix)
    (hready : Assumable limit ρ s da db assumed) (hlower : Included ρ s a b)
    (h : entailsStep.unrolled normal entails assumed a b) : Included ρ (s + 1) a b := by
  simp only [entailsStep.unrolled] at h
  split_ifs at h with hmem
  · exact included_of_assumed hready ha hb hmem
  · obtain ⟨d, hd, hna, hda⟩ := unroll_tidies hnormal hra ha
    obtain ⟨e, he, hnb, hdb⟩ := unroll_tidies hnormal hrb hb
    have hready' : Assumable limit ρ s d e (assumed ++ [(a, b)]) := by
      refine List.forall_mem_append.mpr ⟨fun r hr => ?_, ?_⟩
      · obtain ⟨hx, hy, hv, hmet⟩ := hready r hr
        exact ⟨hx, hy, hv, hmet.imp (Nat.lt_of_le_of_lt hd) (Or.imp_left (Nat.lt_of_le_of_lt he))⟩
      · rw [List.forall_mem_singleton]
        exact ⟨⟨da, ha⟩, ⟨db, hb⟩, hlower, hfix.imp hda fun h => Or.inl (hdb h)⟩
    have hlow {m m' : Nat} (hle : m' ≤ m) (hr : (Site.closed limit s m).InRange) :
        (Site.closed limit s m').InRange := by
      simp only [Site.InRange, Site.closed] at hr ⊢
      omega
    have hvalid := hent ρ s d e _ _ _ (hlow hd hra) (hlow he hrb) hready' hna.stands hnb.stands h
    intro v hv hav
    have hle := Nat.lt_succ_iff.mp hv
    exact (hnb.means ρ v hle).mp (hvalid v hv ((hna.means ρ v hle).mpr hav))

lemma unrolled_included (hra : (Site.closed limit s da).InRange)
    (hrb : (Site.closed limit s db).InRange) (ha : a.Stands true (.closed limit s da))
    (hb : b.Stands true (.closed limit s db)) (hfix : a.isFix ∨ b.isFix)
    (hready : Assumable limit ρ s da db assumed)
    (h : entailsStep.unrolled normal entails assumed a b) : Included ρ (s + 1) a b := by
  -- by induction on the height: of lower values the pair is known to hold
  induction s with
  | zero =>
    have hlower : Included ρ 0 a b := fun v hv => absurd hv (Nat.not_lt_zero _)
    exact unrolled_included_step hnormal hent hra hrb ha hb hfix hready hlower h
  | succ s ih =>
    have hlow {d : Nat} (hr : (Site.closed limit (s + 1) d).InRange) :
        (Site.closed limit s d).InRange := by
      simp only [Site.InRange, Site.closed, Nat.succ_mul] at hr ⊢
      omega
    have hlower := ih (hlow hra) (hlow hrb) (ha.lower (Nat.le_succ s)) (hb.lower (Nat.le_succ s))
      (hready.lower (Nat.lt_succ_self s) da db)
    exact unrolled_included_step hnormal hent hra hrb ha hb hfix hready hlower h

lemma entailsStep_included {conj : List Constraint → Constraint} (hconj : Combines conj) :
    IncludesUnder limit (entailsStep normal conj entails) := by
  intro ρ s da db assumed a b hra hrb hready ha hb h
  have hsame {a' b' : Constraint} (ha' : a'.Stands true (.closed limit s da))
      (hb' : b'.Stands true (.closed limit s db)) (h' : entails assumed a' b') :
      Included ρ (s + 1) a' b' :=
    hent ρ s da db assumed a' b' hra hrb hready ha' hb' h'
  have hfinds := hent.findsIncluded hready hra
  unfold entailsStep at h
  split_ifs at h with hab
  · exact fun v hv => (ha.means_of_same hab (Nat.lt_succ_iff.mp hv)).mp
  · split at h
    · exact fun v _ hav => hav.elim
    · exact fun v _ _ => trivial
    · simp at h
    · exact ha.elim
    · next ys _ _ _ =>
      intro v hv hav
      refine means_conj.mpr fun y hy => ?_
      exact hsame ha ((stands_conj.mp hb).2 y hy) (List.all_eq_true.mp h y hy) v hv hav
    · next w hany hnever hdisj hconj =>
      intro v hv hav
      obtain ⟨x, rfl, _⟩ := ha
      obtain ⟨y, rfl, hy⟩ : ∃ y, v = .number y ∧ y.same x := by
        cases v <;> simp_all [Means, Value.same]
      have hflat : b.isFlat := by
        cases b <;> simp_all [isFlat]
      have hopen : b.isOpen = false := by
        cases b with
        | bvar i =>
          obtain ⟨_, _, hi⟩ := hb
          simp [Site.closed] at hi
        | ref | var => exact hb.elim
        | _ => rfl
      exact (admits_iff_means ⟨hb, hflat⟩ hopen hy ρ).mp h
    · exact unrolled_included hnormal hent hra hrb ha hb (Or.inl rfl) hready h
    · exact unrolled_included hnormal hent hra hrb ha hb (Or.inr rfl) hready h
    · exact hb.elim
    · next xs _ _ _ _ _ =>
      rw [Bool.or_eq_true] at h
      rcases h with h | h
      · intro v hv hav
        obtain ⟨x, hx, h⟩ := List.any_eq_true.mp h
        exact hsame ((stands_conj.mp ha).2 x hx) hb h v hv (means_conj.mp hav x hx)
      · exact conjEntails_included hfinds ha hconj hra hb h
    · exact ha.elim
    · exact hb.elim
    · simp at h
    · simp at h
    · exact atomEntails_included hfinds ha hb h

end Step

theorem includesUnder_entails (n : Nat) : IncludesUnder limit (entails n) := by
  induction n with
  | zero => exact fun _ _ _ _ _ _ _ _ _ _ _ _ h => by simp [entails] at h
  | succ n ih =>
    have hstep := entailsStep_included (normalAt n).keepsTidy ih ((normalAt n).conjunction false)
    simpa only [entails] using hstep

lemma means_of_implies {d : Nat} (hr : (Site.closed limit s d).InRange)
    (ha : a.Stands false (.closed limit s d)) (hb : b.Stands false (.closed limit s d))
    (h : a.implies b) {v : Value} (hv : v.height ≤ s) (hav : a.Means ρ v) : b.Means ρ v := by
  have hna := simplify_tidies hr ha
  have hnb := simplify_tidies hr hb
  simp only [implies] at h
  generalize a.simplify = a' at h hna
  generalize b.simplify = b' at h hnb
  have hready : Assumable limit ρ s d d [] := by simp [Assumable]
  have hinc := includesUnder_entails _ ρ s d d [] a' b' hr hr hready hna.stands hnb.stands h
  exact (hnb.means ρ v hv).mp (hinc v (Nat.lt_succ_iff.mpr hv) ((hna.means ρ v hv).mpr hav))

end Stagewise.Constraint
