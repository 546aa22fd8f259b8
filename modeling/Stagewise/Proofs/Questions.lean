import Stagewise.Proofs.Union

/-! The recursion behind normal forms as questions and answers. Normalising, conjoining, uniting
and comparing constraints ask each other; here the answers are a parameter, a step makes better
answers of given ones, and a relation says which questions the step to an answer may ask. The step
depends on the answers to these questions only. -/

set_option autoImplicit false

namespace Stagewise.Constraint

inductive Question where
  | normal (c : Constraint)
  | conj (unroll : Bool) (cs : List Constraint)
  | disj (cs : List Constraint)
  | entails (assumed : Assumptions) (a b : Constraint)

structure Answers where
  normal : Constraint → Constraint
  conj : Bool → List Constraint → Constraint
  disj : List Constraint → Constraint
  entails : Assumptions → Constraint → Constraint → Bool

namespace Answers

def within (n : Nat) : Answers :=
  ⟨normalize n, conjunction n, disjunction n, Constraint.entails n⟩

def step (l : Answers) : Answers where
  normal
    | .conj cs => l.conj true (cs.map l.normal)
    | .disj cs => l.disj (cs.map l.normal)
    | .neg c => negate (l.normal c)
    | .field name c => finishPart (.field name) (l.normal c)
    | .elementAt i c => finishPart (.elementAt i) (l.normal c)
    | .elements c => .elements (l.normal c)
    | .length c =>
      let inner := l.normal c
      if inner.isNever then .never
      else if (l.conj false [inner, .kind .number, .bound .ge Number.zero]).isNever then .never
      else .length inner
    | .fix body => finishFix (l.normal body)
    | .bound r x => if x.isNaN then .never else .bound r x
    | c => c
  conj unroll cs :=
    let flat := flattenConjList [] cs
    if flat.any isNever then .never
    else if flat.length ≤ 1 then finishConj flat
    else if unroll && flat.any isUnrollable then
      l.conj false (flat.map fun c => if c.isUnrollable then l.normal c.unfold else c)
    else
      (distribute? (l.conj unroll) l.disj flat).getD
        (conjoinFlat (l.conj unroll) (l.conj false) (l.entails []) flat)
  disj cs :=
    let flat := flattenDisjList [] cs
    if flat.any isAny then .any else finishDisj (uncovered (l.entails []) [] (mergeBools flat))
  entails := entailsStep l.normal (l.conj false) l.entails

def after (l : Answers) : Nat → Answers
  | 0 => l
  | n + 1 => (l.after n).step

lemma within_succ (n : Nat) : within (n + 1) = (within n).step := by
  refine Answers.mk.injEq .. ▸ ⟨funext fun c => ?_, funext₂ fun u cs => ?_, funext fun cs => ?_,
    funext₃ fun assumed a b => ?_⟩
  · cases c <;> rfl
  · simp only [within, conjunction]
    split_ifs
    · rfl
    · rfl
    · rfl
    · cases distribute? (conjunction n u) (disjunction n) (flattenConjList [] cs) <;> rfl
  · simp only [within, disjunction]
  · rfl

lemma within_eq_after (n : Nat) : within n = (within 0).after n := by
  induction n with
  | zero => rfl
  | succ n ih => rw [within_succ, ih, after]

def Agree (l l' : Answers) : Question → Prop
  | .normal c => l.normal c = l'.normal c
  | .conj unroll cs => l.conj unroll cs = l'.conj unroll cs
  | .disj cs => l.disj cs = l'.disj cs
  | .entails assumed a b => l.entails assumed a b = l'.entails assumed a b

end Answers

/-! ### The stages of a conjunction -/

lemma isNeg_iff {c : Constraint} : c.isNeg ↔ ∃ d, c = .neg d := by
  cases c <;> simp [isNeg]

lemma isDisj_iff {c : Constraint} : c.isDisj ↔ ∃ cs, c = .disj cs := by
  cases c <;> simp [isDisj]

def branchCount (flat : List Constraint) : Nat :=
  (flat.filter isDisj).foldl (fun acc d => acc * (branchesOf d).length) 1

def isDistributed (flat : List Constraint) : Bool :=
  !((flat.filter isDisj).isEmpty || maxBranches < branchCount flat)

def alternatives (flat : List Constraint) : List (List Constraint) :=
  combinations (flat.filter fun c => !c.isDisj) (flat.filter isDisj)

lemma distribute?_eq (conj disj : List Constraint → Constraint) (flat : List Constraint) :
    distribute? conj disj flat =
      if isDistributed flat then some (disj ((alternatives flat).map conj)) else none := by
  have h : distribute? conj disj flat =
      if !isDistributed flat then none else some (disj ((alternatives flat).map conj)) := by
    rw [isDistributed, Bool.not_not]
    rfl
  rw [h]
  cases isDistributed flat <;> rfl

def Structure.groups (conj : List Constraint → Constraint) (s : Structure) :
    List (List Constraint) :=
  s.fields.map Prod.snd ++ [s.elements] ++ s.positions.map (·.2 ++ mergedElements conj s) ++
    [s.lengths]

def gather (conj conjPlain : List Constraint → Constraint) (flat : List Constraint) :
    Option (Option Kind × List Constraint) :=
  (mergeStructure conj conjPlain flat).bind fun cs =>
    (commonKind none cs).bind fun common =>
      (if common == some .number then collapseBounds cs else some cs).map (common, ·)

def positives (cs : List Constraint) : List Constraint := cs.filter fun c => !c.isNeg

def settle (conjPlain : List Constraint → Constraint) (entails : Constraint → Constraint → Bool)
    (common : Option Kind) (cs : List Constraint) : Constraint :=
  match cs.filterMap literal? with
  | v :: vs => if (v :: vs).all (· == v) then absorb v cs else .never
  | [] =>
    match resolveNegations conjPlain entails cs with
    | none => .never
    | some cs => finishConj ((cs.filter fun c => !c.isKind) ++ (common.map .kind).toList)

lemma conjoinFlat_eq (conj conjPlain : List Constraint → Constraint)
    (entails : Constraint → Constraint → Bool) (flat : List Constraint) :
    conjoinFlat conj conjPlain entails flat =
      (gather conj conjPlain flat).elim .never fun g => settle conjPlain entails g.1 g.2 := by
  simp only [conjoinFlat, gather]
  cases mergeStructure conj conjPlain flat with
  | none => rfl
  | some cs =>
    simp only [Option.bind_some]
    cases commonKind none cs with
    | none => rfl
    | some common =>
      simp only [Option.bind_some]
      cases if common == some .number then collapseBounds cs else some cs with
      | none => rfl
      | some ds => rfl

/-! ### Which questions are asked -/

namespace Answers

structure Opens (unroll : Bool) (cs : List Constraint) : Prop where
  possible : (flattenConjList [] cs).any isNever = false
  several : 1 < (flattenConjList [] cs).length
  rolled : (unroll && (flattenConjList [] cs).any isUnrollable) = false

/-- The negation of `d` is weighed against the other conjuncts of `ds`, to which the conjunction
has come. -/
structure Weighs (l : Answers) (unroll : Bool) (cs ds : List Constraint) (d : Constraint) :
    Prop where
  opens : Opens unroll cs
  whole : isDistributed (flattenConjList [] cs) = false
  gathers : ∃ common,
    gather (l.conj unroll) (l.conj false) (flattenConjList [] cs) = some (common, ds)
  literals : ds.filterMap literal? = []
  positive : positives ds ≠ []
  negated : .neg d ∈ ds

structure Unrolls (assumed : Assumptions) (a b : Constraint) : Prop where
  recursive : (∃ body, a = .fix body) ∨ ∃ body, b = .fix body
  fresh : (assumed.any fun (x, y) => x == a && y == b) = false
  few : assumed.length < maxAssumptions

inductive Compares (l : Answers) (assumed : Assumptions) :
    Constraint → Constraint → Question → Prop
  | fromBranch {xs : List Constraint} {x b : Constraint} : x ∈ xs →
      Compares l assumed (.disj xs) b (.entails assumed x b)
  | toMember {ys : List Constraint} {a y : Constraint} : y ∈ ys →
      Compares l assumed a (.conj ys) (.entails assumed a y)
  | toBranch {ys : List Constraint} {a y : Constraint} : y ∈ ys →
      Compares l assumed a (.disj ys) (.entails assumed a y)
  | fromMember {xs : List Constraint} {x b : Constraint} : x ∈ xs →
      Compares l assumed (.conj xs) b (.entails assumed x b)
  | item {xs : List Constraint} {i : Nat} {c d : Constraint} : .elementAt i c ∈ xs →
      Compares l assumed (.conj xs) (.elements d) (.entails assumed c d)
  | statements {xs : List Constraint} {i : Nat} {d : Constraint} :
      2 ≤ (statementsAt i xs).length → Compares l assumed (.conj xs) (.elementAt i d)
        (.conj false ((statementsAt i xs).filter fun c => !c.isAny))
  | stated {xs : List Constraint} {i : Nat} {d : Constraint} :
      2 ≤ (statementsAt i xs).length → Compares l assumed (.conj xs) (.elementAt i d)
        (.entails assumed (l.conj false ((statementsAt i xs).filter fun c => !c.isAny)) d)
  | lengths {xs : List Constraint} {d : Constraint} :
      Compares l assumed (.conj xs) (.length d) (.conj false (lengthStatements xs))
  | length {xs : List Constraint} {d : Constraint} : Compares l assumed (.conj xs) (.length d)
      (.entails assumed (l.conj false (lengthStatements xs)) d)
  | contrary {x y : Constraint} : Compares l assumed (.neg x) (.neg y) (.entails assumed y x)
  | contradiction {a y : Constraint} : a.isNeg = false → a.isDisj = false →
      (∀ xs, a ≠ .conj xs) → Compares l assumed a (.neg y) (.normal (.conj [a, y]))
  | inField {name : String} {c d : Constraint} :
      Compares l assumed (.field name c) (.field name d) (.entails assumed c d)
  | inElements {c d : Constraint} :
      Compares l assumed (.elements c) (.elements d) (.entails assumed c d)
  | inLength {c d : Constraint} :
      Compares l assumed (.length c) (.length d) (.entails assumed c d)
  | inElementAt {i : Nat} {c d : Constraint} :
      Compares l assumed (.elementAt i c) (.elementAt i d) (.entails assumed c d)
  | unfoldLeft {body b : Constraint} : Unrolls assumed (.fix body) b →
      Compares l assumed (.fix body) b (.normal (unfold (.fix body)))
  | unfoldRight {a body : Constraint} : Unrolls assumed a (.fix body) →
      Compares l assumed a (.fix body) (.normal (unfold (.fix body)))
  | assume {a b : Constraint} : Unrolls assumed a b → Compares l assumed a b
      (.entails (assumed ++ [(a, b)]) (entailsStep.unroll l.normal a)
        (entailsStep.unroll l.normal b))

inductive Asks (l : Answers) : Question → Question → Prop
  | part {c d : Constraint} : d ∈ c.children → Asks l (.normal c) (.normal d)
  | members (cs : List Constraint) : Asks l (.normal (.conj cs)) (.conj true (cs.map l.normal))
  | branches (cs : List Constraint) : Asks l (.normal (.disj cs)) (.disj (cs.map l.normal))
  | count (c : Constraint) : Asks l (.normal (.length c))
      (.conj false [l.normal c, .kind .number, .bound .ge Number.zero])
  | unfold {cs : List Constraint} {c : Constraint} :
      (flattenConjList [] cs).any isNever = false → 1 < (flattenConjList [] cs).length →
      c ∈ flattenConjList [] cs → c.isUnrollable → Asks l (.conj true cs) (.normal c.unfold)
  | unfolded {cs : List Constraint} :
      (flattenConjList [] cs).any isNever = false → 1 < (flattenConjList [] cs).length →
      (flattenConjList [] cs).any isUnrollable →
      Asks l (.conj true cs) (.conj false ((flattenConjList [] cs).map fun c =>
        if c.isUnrollable then l.normal c.unfold else c))
  | alternative {unroll : Bool} {cs combo : List Constraint} : Opens unroll cs →
      isDistributed (flattenConjList [] cs) → combo ∈ alternatives (flattenConjList [] cs) →
      Asks l (.conj unroll cs) (.conj unroll combo)
  | distributed {unroll : Bool} {cs : List Constraint} : Opens unroll cs →
      isDistributed (flattenConjList [] cs) →
      Asks l (.conj unroll cs) (.disj ((alternatives (flattenConjList [] cs)).map (l.conj unroll)))
  | group {unroll : Bool} {cs ds : List Constraint} : Opens unroll cs →
      isDistributed (flattenConjList [] cs) = false →
      ds ∈ (Structure.ofList (flattenConjList [] cs)).groups (l.conj unroll) → 2 ≤ ds.length →
      Asks l (.conj unroll cs) (.conj unroll ds)
  | reach {unroll : Bool} {cs ds : List Constraint} {last : Nat} : Opens unroll cs →
      isDistributed (flattenConjList [] cs) = false →
      (Structure.ofList (flattenConjList [] cs)).lengths ≠ [] →
      (Structure.ofList (flattenConjList [] cs)).positions.getLast? = some (last, ds) →
      Asks l (.conj unroll cs) (.conj false
        [conjoin (l.conj unroll) (Structure.ofList (flattenConjList [] cs)).lengths, .kind .number,
          .bound .gt (Number.ofNat last)])
  | context {unroll : Bool} {cs ds : List Constraint} {d : Constraint} :
      l.Weighs unroll cs ds d → Asks l (.conj unroll cs) (.conj false (positives ds))
  | entailed {unroll : Bool} {cs ds : List Constraint} {d : Constraint} :
      l.Weighs unroll cs ds d →
      Asks l (.conj unroll cs) (.entails [] (l.conj false (positives ds)) d)
  | excluded {unroll : Bool} {cs ds : List Constraint} {d : Constraint} :
      l.Weighs unroll cs ds d →
      Asks l (.conj unroll cs) (.conj false [l.conj false (positives ds), d])
  | covers {cs : List Constraint} {c d : Constraint} :
      c ∈ mergeBools (flattenDisjList [] cs) → d ∈ mergeBools (flattenDisjList [] cs) →
      Asks l (.disj cs) (.entails [] c d)
  | compare {assumed : Assumptions} {a b : Constraint} {q : Question} : (a == b) = false →
      l.Compares assumed a b q → Asks l (.entails assumed a b) q

end Answers

/-! ### A step depends on what it asks only -/

section Congruence

lemma any_eq_any_of_mem {α : Type} {p q : α → Bool} {xs : List α} (h : ∀ x ∈ xs, p x = q x) :
    xs.any p = xs.any q := by
  rw [Bool.eq_iff_iff, List.any_eq_true, List.any_eq_true]
  exact exists_congr fun x => and_congr_right fun hx => by rw [h x hx]

lemma all_eq_all_of_mem {α : Type} {p q : α → Bool} {xs : List α} (h : ∀ x ∈ xs, p x = q x) :
    xs.all p = xs.all q := by
  rw [Bool.eq_iff_iff, List.all_eq_true, List.all_eq_true]
  exact forall₂_congr fun x hx => by rw [h x hx]

variable {conj conj' plain plain' : List Constraint → Constraint}
  {entails entails' : Constraint → Constraint → Bool} {cs flat : List Constraint}

lemma conjoin_congr (hne : cs ≠ []) (h : 2 ≤ cs.length → conj cs = conj' cs) :
    conjoin conj cs = conjoin conj' cs := by
  match cs with
  | [_] => rfl
  | _ :: _ :: _ => exact h (by simp)

lemma mergeParts_congr {α : Type} {wrap : α → Constraint → Constraint} {extra : List Constraint}
    {parts : List (α × List Constraint)}
    (h : ∀ q ∈ parts, conjoin conj (q.2 ++ extra) = conjoin conj' (q.2 ++ extra)) :
    mergeParts wrap conj extra parts = mergeParts wrap conj' extra parts := by
  induction parts with
  | nil => rfl
  | cons q parts ih =>
    rw [List.forall_mem_cons] at h
    simp only [mergeParts, h.1, ih h.2]

lemma mergeStructure_congr
    (hgroup : ∀ ds ∈ (Structure.ofList flat).groups conj, 2 ≤ ds.length → conj ds = conj' ds)
    (hreach : ∀ last ds, (Structure.ofList flat).lengths ≠ [] →
      (Structure.ofList flat).positions.getLast? = some (last, ds) →
      plain [conjoin conj (Structure.ofList flat).lengths, .kind .number,
        .bound .gt (Number.ofNat last)] =
      plain' [conjoin conj (Structure.ofList flat).lengths, .kind .number,
        .bound .gt (Number.ofNat last)]) :
    mergeStructure conj plain flat = mergeStructure conj' plain' flat := by
  have hne := Structure.isGrouped_ofList flat
  rw [mergeStructure_eq, mergeStructure_eq]
  generalize Structure.ofList flat = s at *
  simp only [Structure.groups, List.forall_mem_append, List.forall_mem_map,
    List.forall_mem_singleton] at hgroup
  obtain ⟨⟨⟨hfields, helements⟩, hpositions⟩, hlengths⟩ := hgroup
  have hmerged : mergedElements conj s = mergedElements conj' s := by
    simp only [mergedElements]
    split_ifs with he
    · rfl
    · rw [conjoin_congr (by simpa using he) helements]
  have hf : mergeParts .field conj [] s.fields = mergeParts .field conj' [] s.fields :=
    mergeParts_congr fun q hq => by
      simpa using conjoin_congr (hne.fields q hq) (hfields q hq)
  have hp : mergeParts .elementAt conj (mergedElements conj s) s.positions =
      mergeParts .elementAt conj' (mergedElements conj s) s.positions :=
    mergeParts_congr fun q hq => conjoin_congr (by simp [hne.positions q hq]) (hpositions q hq)
  have hl : mergedLength conj plain s = mergedLength conj' plain' s := by
    cases he : s.lengths.isEmpty with
    | true => simp only [mergedLength, he, if_true]
    | false =>
      have hnil : s.lengths ≠ [] := by simpa using he
      have hconj := conjoin_congr hnil hlengths
      rw [hconj] at hreach
      cases hlast : s.positions.getLast? with
      | none => simp only [mergedLength, he, hlast, hconj]
      | some q => simp only [mergedLength, he, hlast, hreach q.1 q.2 hnil hlast, hconj]
  simp only [hf, hp, hl, ← hmerged]

lemma resolve_congr {context : Constraint} (h : ∀ d, .neg d ∈ cs →
      entails context d = entails' context d ∧ conj [context, d] = conj' [context, d]) :
    resolveNegations.resolve conj entails context cs =
      resolveNegations.resolve conj' entails' context cs := by
  induction cs with
  | nil => rfl
  | cons c cs ih =>
    have hrest := ih fun d hd => h d (List.mem_cons_of_mem _ hd)
    cases c with
    | neg d =>
      obtain ⟨he, hc⟩ := h d List.mem_cons_self
      simp only [resolveNegations.resolve, he, hc, hrest]
    | _ => simp only [resolveNegations.resolve, hrest]

lemma resolveNegations_congr (h : ∀ d, .neg d ∈ cs → positives cs ≠ [] →
      conj (positives cs) = conj' (positives cs) ∧
      entails (conj (positives cs)) d = entails' (conj (positives cs)) d ∧
      conj [conj (positives cs), d] = conj' [conj (positives cs), d]) :
    resolveNegations conj entails cs = resolveNegations conj' entails' cs := by
  simp only [resolveNegations]
  split_ifs with hall
  · rfl
  · simp only [Bool.or_eq_true, beq_iff_eq, not_or, List.isEmpty_iff] at hall
    obtain ⟨c, hc, hn⟩ : ∃ c ∈ cs, c.isNeg := by
      by_contra hnone
      exact hall.2 (congrArg List.length (List.filter_eq_self.mpr (by simpa using hnone)))
    obtain ⟨d, rfl⟩ := isNeg_iff.mp hn
    have hpos : conj (positives cs) = conj' (positives cs) := (h d hc hall.1).1
    have hfilter : cs.filter (fun c => !c.isNeg) = positives cs := rfl
    rw [hfilter, ← hpos]
    exact resolve_congr fun e he => (h e he hall.1).2

lemma uncovered_congr {before : List Constraint}
    (h : ∀ c ∈ before ++ cs, ∀ d ∈ before ++ cs, entails c d = entails' c d) :
    uncovered entails before cs = uncovered entails' before cs := by
  induction cs generalizing before with
  | nil => rfl
  | cons c after ih =>
    have hrest := @ih (before ++ [c]) (by simpa using h)
    have hbefore : before.any (entails c) = before.any (entails' c) :=
      any_eq_any_of_mem fun d hd => h c (by simp) d (by simp [hd])
    have hafter : (after.any fun d => entails c d && !entails d c) =
        after.any fun d => entails' c d && !entails' d c :=
      any_eq_any_of_mem fun d hd => by
        rw [h c (by simp) d (by simp [hd]), h d (by simp [hd]) c (by simp)]
    simp only [uncovered, hbefore, hafter, hrest]

lemma conjEntails_congr {goal : Constraint}
    (hitem : ∀ i c d, goal = .elements d → .elementAt i c ∈ cs → entails c d = entails' c d)
    (hstated : ∀ i d, goal = .elementAt i d → 2 ≤ (statementsAt i cs).length →
      entails (conj ((statementsAt i cs).filter fun c => !c.isAny)) d =
        entails' (conj' ((statementsAt i cs).filter fun c => !c.isAny)) d)
    (hlength : ∀ d, goal = .length d →
      entails (conj (lengthStatements cs)) d = entails' (conj' (lengthStatements cs)) d) :
    conjEntails conj entails cs goal = conjEntails conj' entails' cs goal := by
  cases goal with
  | elements d =>
    simp only [conjEntails]
    cases tupleLength? cs with
    | none => rfl
    | some n =>
      refine all_eq_all_of_mem fun index _ => any_eq_any_of_mem fun c hc => ?_
      cases c with
      | elementAt i c => simp only [hitem i c d rfl hc]
      | _ => rfl
  | elementAt i d =>
    simp only [conjEntails]
    by_cases h2 : 2 ≤ (statementsAt i cs).length
    · rw [hstated i d rfl h2]
    · simp only [h2, decide_false, Bool.false_and]
  | length d => exact hlength d rfl
  | _ => rfl

end Congruence

namespace Answers

variable {l l' : Answers}

lemma normal_step_eq {c : Constraint} (h : ∀ q, l.Asks (.normal c) q → l.Agree l' q) :
    l.step.normal c = l'.step.normal c := by
  have hpart : ∀ d ∈ c.children, l.normal d = l'.normal d := fun d hd => h _ (.part hd)
  cases c with
  | conj cs =>
    have hmap : cs.map l.normal = cs.map l'.normal := List.map_congr_left hpart
    exact (h _ (.members cs)).trans (congrArg _ hmap)
  | disj cs =>
    have hmap : cs.map l.normal = cs.map l'.normal := List.map_congr_left hpart
    exact (h _ (.branches cs)).trans (congrArg _ hmap)
  | length c =>
    have hc : l.normal c = l'.normal c := hpart c (by simp [children])
    have hcount : l.conj false [l.normal c, .kind .number, .bound .ge Number.zero] =
        l'.conj false [l.normal c, .kind .number, .bound .ge Number.zero] := h _ (.count c)
    rw [hc] at hcount
    simp only [step, hc, hcount]
  | neg c | field _ c | elementAt _ c | elements c | fix c =>
    have hc : l.normal c = l'.normal c := hpart c (by simp [children])
    simp only [step, hc]
  | _ => rfl

lemma conjoinFlat_step_eq {unroll : Bool} {cs : List Constraint} (hopen : Opens unroll cs)
    (hwhole : isDistributed (flattenConjList [] cs) = false)
    (h : ∀ q, l.Asks (.conj unroll cs) q → l.Agree l' q) :
    conjoinFlat (l.conj unroll) (l.conj false) (l.entails []) (flattenConjList [] cs) =
      conjoinFlat (l'.conj unroll) (l'.conj false) (l'.entails []) (flattenConjList [] cs) := by
  have hmerge : mergeStructure (l.conj unroll) (l.conj false) (flattenConjList [] cs) =
      mergeStructure (l'.conj unroll) (l'.conj false) (flattenConjList [] cs) :=
    mergeStructure_congr (fun ds hds h2 => h _ (.group hopen hwhole hds h2))
      fun last ds hne hlast => h _ (.reach hopen hwhole hne hlast)
  have hgather : gather (l.conj unroll) (l.conj false) (flattenConjList [] cs) =
      gather (l'.conj unroll) (l'.conj false) (flattenConjList [] cs) := by
    simp only [gather, hmerge]
  rw [conjoinFlat_eq, conjoinFlat_eq, ← hgather]
  cases hg : gather (l.conj unroll) (l.conj false) (flattenConjList [] cs) with
  | none => rfl
  | some g =>
    obtain ⟨common, ds⟩ := g
    simp only [Option.elim_some, settle]
    cases hlit : ds.filterMap literal? with
    | cons v vs => rfl
    | nil =>
      have hresolve : resolveNegations (l.conj false) (l.entails []) ds =
          resolveNegations (l'.conj false) (l'.entails []) ds := by
        refine resolveNegations_congr fun d hd hpos => ?_
        have hweigh : l.Weighs unroll cs ds d := ⟨hopen, hwhole, ⟨common, hg⟩, hlit, hpos, hd⟩
        exact ⟨h _ (.context hweigh), h _ (.entailed hweigh), h _ (.excluded hweigh)⟩
      simp only [hresolve]

lemma conj_step_eq {unroll : Bool} {cs : List Constraint}
    (h : ∀ q, l.Asks (.conj unroll cs) q → l.Agree l' q) :
    l.step.conj unroll cs = l'.step.conj unroll cs := by
  simp only [step]
  split_ifs with hnever hshort hroll
  · rfl
  · rfl
  · rw [Bool.and_eq_true] at hroll
    obtain ⟨rfl, hany⟩ := hroll
    have hmap : ((flattenConjList [] cs).map fun c =>
          if c.isUnrollable then l.normal c.unfold else c) =
        (flattenConjList [] cs).map fun c => if c.isUnrollable then l'.normal c.unfold else c := by
      refine List.map_congr_left fun c hc => ?_
      split_ifs with hu
      · exact h _ (.unfold (by simpa using hnever) (by omega) hc hu)
      · rfl
    rw [← hmap]
    exact h _ (.unfolded (by simpa using hnever) (by omega) hany)
  · have hopen : Opens unroll cs := ⟨by simpa using hnever, by omega, by simpa using hroll⟩
    rw [distribute?_eq, distribute?_eq]
    cases hd : isDistributed (flattenConjList [] cs) with
    | true =>
      have hmap : (alternatives (flattenConjList [] cs)).map (l.conj unroll) =
          (alternatives (flattenConjList [] cs)).map (l'.conj unroll) :=
        List.map_congr_left fun combo hc => h _ (.alternative hopen hd hc)
      have hdisj : l.disj ((alternatives (flattenConjList [] cs)).map (l.conj unroll)) =
          l'.disj ((alternatives (flattenConjList [] cs)).map (l.conj unroll)) :=
        h _ (.distributed hopen hd)
      exact hdisj.trans (congrArg _ hmap)
    | false => exact conjoinFlat_step_eq hopen hd h

lemma disj_step_eq {cs : List Constraint} (h : ∀ q, l.Asks (.disj cs) q → l.Agree l' q) :
    l.step.disj cs = l'.step.disj cs := by
  have hcover : uncovered (l.entails []) [] (mergeBools (flattenDisjList [] cs)) =
      uncovered (l'.entails []) [] (mergeBools (flattenDisjList [] cs)) :=
    uncovered_congr fun c hc d hd => h _ (.covers hc hd)
  simp only [step, hcover]

section Compare

variable {assumed : Assumptions} {a b : Constraint}

lemma unrolled_eq (hfix : (∃ body, a = .fix body) ∨ ∃ body, b = .fix body)
    (h : ∀ q, l.Compares assumed a b q → l.Agree l' q) :
    entailsStep.unrolled l.normal l.entails assumed a b =
      entailsStep.unrolled l'.normal l'.entails assumed a b := by
  simp only [entailsStep.unrolled]
  split_ifs with hassumed hmany
  · rfl
  · rfl
  · have hunrolls : Unrolls assumed a b := ⟨hfix, by simpa using hassumed, by omega⟩
    have hleft : entailsStep.unroll l.normal a = entailsStep.unroll l'.normal a := by
      cases a with
      | fix body => exact h _ (.unfoldLeft hunrolls)
      | _ => rfl
    have hright : entailsStep.unroll l.normal b = entailsStep.unroll l'.normal b := by
      cases b with
      | fix body => exact h _ (.unfoldRight hunrolls)
      | _ => rfl
    rw [← hleft, ← hright]
    exact h _ (.assume hunrolls)

lemma conjEntails_step_eq {xs : List Constraint}
    (h : ∀ q, l.Compares assumed (.conj xs) b q → l.Agree l' q) :
    conjEntails (l.conj false) (l.entails assumed) xs b =
      conjEntails (l'.conj false) (l'.entails assumed) xs b := by
  refine conjEntails_congr ?_ ?_ ?_
  · rintro i c d rfl hc
    exact h _ (.item hc)
  · rintro i d rfl h2
    exact (h _ (.stated h2)).trans (congrArg (l'.entails assumed · d) (h _ (.statements h2)))
  · rintro d rfl
    exact (h _ .length).trans (congrArg (l'.entails assumed · d) (h _ .lengths))

lemma atomEntails_step_eq (h : ∀ q, l.Compares assumed a b q → l.Agree l' q) :
    atomEntails (l.entails assumed) a b = atomEntails (l'.entails assumed) a b := by
  unfold atomEntails
  split
  · rfl
  · next m c n d =>
    by_cases hn : m = n
    · subst hn
      exact congrArg _ (h _ .inField)
    · rw [beq_eq_false_iff_ne.mpr hn, Bool.false_and, Bool.false_and]
  · exact h _ .inElements
  · exact h _ .inLength
  · next i c j d =>
    by_cases hi : i = j
    · subst hi
      exact congrArg _ (h _ .inElementAt)
    · rw [beq_eq_false_iff_ne.mpr hi, Bool.false_and, Bool.false_and]
  · rfl
  · rfl

lemma entails_step_eq (h : ∀ q, l.Asks (.entails assumed a b) q → l.Agree l' q) :
    l.step.entails assumed a b = l'.step.entails assumed a b := by
  simp only [step, entailsStep]
  split_ifs with hs
  · rfl
  · rw [Bool.not_eq_true] at hs
    replace h : ∀ q, l.Compares assumed a b q → l.Agree l' q := fun q hq => h q (.compare hs hq)
    split
    · rfl
    · rfl
    · rfl
    · exact all_eq_all_of_mem fun x hx => h _ (.fromBranch hx)
    · exact all_eq_all_of_mem fun y hy => h _ (.toMember hy)
    · rfl
    · exact unrolled_eq (.inl ⟨_, rfl⟩) h
    · exact unrolled_eq (.inr ⟨_, rfl⟩) h
    · exact any_eq_any_of_mem fun y hy => h _ (.toBranch hy)
    · exact congrArg₂ or (any_eq_any_of_mem fun x hx => h _ (.fromMember hx))
        (conjEntails_step_eq h)
    · exact h _ .contrary
    · next hdisj _ _ hconj hneg =>
      refine congrArg isNever (h _ (.contradiction ?_ ?_ hconj))
      · exact Bool.eq_false_iff.mpr fun hn => (isNeg_iff.mp hn).elim hneg
      · exact Bool.eq_false_iff.mpr fun hn => (isDisj_iff.mp hn).elim hdisj
    · rfl
    · rfl
    · exact atomEntails_step_eq h

end Compare

theorem step_agree {q : Question} (h : ∀ r, l.Asks q r → l.Agree l' r) :
    l.step.Agree l'.step q := by
  cases q with
  | normal c => exact normal_step_eq h
  | conj unroll cs => exact conj_step_eq h
  | disj cs => exact disj_step_eq h
  | entails assumed a b => exact entails_step_eq h

end Answers

end Stagewise.Constraint
