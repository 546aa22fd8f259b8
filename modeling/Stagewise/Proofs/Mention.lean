import Mathlib.Data.List.Nodup
import Mathlib.Data.List.Perm.Subperm
import Mathlib.Tactic.Common
import Stagewise.Staging.Session
import Stagewise.Term.Names

/-! The names that a program mentions, constructor by constructor, and new names: a name that is
made up for a scope is mentioned by nothing that is expressed in it. -/

set_option autoImplicit false

namespace Stagewise

/-! ### Free names -/

namespace Occurrence

abbrev namesOf (os : List Occurrence) : List String := os.map Occurrence.name

end Occurrence

namespace Term

open Occurrence

variable {n : String}

mutual

theorem mem_occurrences : ∀ (bound : List String) (l : Bool) (e : Term),
    n ∈ namesOf (e.occurrences bound l) ↔ n ∉ bound ∧ n ∈ namesOf e.free
  | bound, l, .mk node span => by
    rw [free, occurrences, occurrences]
    exact mem_occurrencesNode bound l node

theorem mem_occurrencesNode : ∀ (bound : List String) (l : Bool) (node : Node),
    n ∈ namesOf (occurrencesNode bound l node) ↔
      n ∉ bound ∧ n ∈ namesOf (occurrencesNode [] false node)
  | bound, l, .literal _ | bound, l, .value _ => by simp [occurrencesNode]
  | bound, l, .var name => by
    by_cases h : name ∈ bound <;> simp [occurrencesNode, h]
    · rintro hn rfl
      exact hn h
    · rintro rfl
      exact h
  | bound, l, .unary _ e | bound, l, .field e _ | bound, l, .await e | bound, l, .throw e => by
    rw [occurrencesNode, occurrencesNode]
    exact mem_occurrences bound l e
  | bound, l, .binary _ a b => by
    simp only [occurrencesNode, List.map_append, List.mem_append]
    rw [mem_occurrences bound l a, mem_occurrences bound l b, free, free]
    tauto
  | bound, l, .ifElse test yes no => by
    simp only [occurrencesNode, List.map_append, List.mem_append]
    rw [mem_occurrences bound l test, mem_occurrences bound l yes, mem_occurrences bound l no,
      free, free, free]
    tauto
  | bound, l, .letIn p init body => by
    simp only [occurrencesNode, List.map_append, List.mem_append]
    rw [mem_occurrencesPattern bound l p, mem_occurrences bound l init,
      mem_occurrences (p.names ++ bound) l body, mem_occurrences (p.names ++ []) false body, free]
    simp only [List.mem_append, List.not_mem_nil, or_false]
    tauto
  | bound, l, .lambda f => by
    rw [occurrencesNode, occurrencesNode]
    exact mem_occurrencesLambda bound l f
  | bound, l, .call callee args => by
    simp only [occurrencesNode, List.map_append, List.mem_append]
    rw [mem_occurrences bound l callee, mem_occurrencesList bound l args, free]
    tauto
  | bound, l, .object entries => by
    rw [occurrencesNode, occurrencesNode]
    exact mem_occurrencesEntries bound l entries
  | bound, l, .array items => by
    rw [occurrencesNode, occurrencesNode]
    exact mem_occurrencesItems bound l items
  | bound, l, .index e key => by
    simp only [occurrencesNode, List.map_append, List.mem_append]
    rw [mem_occurrences bound l e, mem_occurrences bound l key, free, free]
    tauto
  | bound, l, .template parts => by
    rw [occurrencesNode, occurrencesNode]
    exact mem_occurrencesParts bound l parts
  | bound, l, .block statements result => by
    simp only [occurrencesNode, List.map_append, List.mem_append]
    rw [mem_occurrencesStatements bound l statements,
      mem_occurrences (statements.flatMap Statement.names ++ bound) l result,
      mem_occurrences (statements.flatMap Statement.names ++ []) false result]
    simp only [List.mem_append, List.not_mem_nil, or_false]
    tauto
  | bound, l, .matchOn e cases => by
    simp only [occurrencesNode, List.map_append, List.mem_append]
    rw [mem_occurrences bound l e, mem_occurrencesCases bound l cases, free]
    tauto

theorem mem_occurrencesLambda : ∀ (bound : List String) (l : Bool) (f : Lambda),
    n ∈ namesOf (occurrencesLambda bound l f) ↔
      n ∉ bound ∧ n ∈ namesOf (occurrencesLambda [] false f)
  | bound, l, .mk id name params body => by
    simp only [occurrencesLambda, List.map_append, List.mem_append]
    rw [mem_occurrencesParams bound l params,
      mem_occurrences ((Lambda.mk id name params body).boundNames ++ bound) true body,
      mem_occurrences ((Lambda.mk id name params body).boundNames ++ []) true body]
    simp only [List.mem_append, List.not_mem_nil, or_false]
    tauto

theorem mem_occurrencesParams : ∀ (bound : List String) (l : Bool) (ps : List Param),
    n ∈ namesOf (occurrencesParams bound l ps) ↔
      n ∉ bound ∧ n ∈ namesOf (occurrencesParams [] false ps)
  | bound, l, [] => by simp [occurrencesParams]
  | bound, l, .mk _ none :: ps => by
    rw [occurrencesParams, occurrencesParams]
    exact mem_occurrencesParams bound l ps
  | bound, l, .mk _ (some ty) :: ps => by
    simp only [occurrencesParams, List.map_append, List.mem_append]
    rw [mem_occurrences bound l ty, mem_occurrencesParams bound l ps, free]
    tauto

theorem mem_occurrencesList : ∀ (bound : List String) (l : Bool) (es : List Term),
    n ∈ namesOf (occurrencesList bound l es) ↔
      n ∉ bound ∧ n ∈ namesOf (occurrencesList [] false es)
  | bound, l, [] => by simp [occurrencesList]
  | bound, l, e :: es => by
    simp only [occurrencesList, List.map_append, List.mem_append]
    rw [mem_occurrences bound l e, mem_occurrencesList bound l es, free]
    tauto

theorem mem_occurrencesEntries : ∀ (bound : List String) (l : Bool) (es : List Entry),
    n ∈ namesOf (occurrencesEntries bound l es) ↔
      n ∉ bound ∧ n ∈ namesOf (occurrencesEntries [] false es)
  | bound, l, [] => by simp [occurrencesEntries]
  | bound, l, .field _ e :: es | bound, l, .spread e :: es => by
    simp only [occurrencesEntries, List.map_append, List.mem_append]
    rw [mem_occurrences bound l e, mem_occurrencesEntries bound l es, free]
    tauto

theorem mem_occurrencesItems : ∀ (bound : List String) (l : Bool) (es : List Item),
    n ∈ namesOf (occurrencesItems bound l es) ↔
      n ∉ bound ∧ n ∈ namesOf (occurrencesItems [] false es)
  | bound, l, [] => by simp [occurrencesItems]
  | bound, l, .item e :: es | bound, l, .spread e :: es => by
    simp only [occurrencesItems, List.map_append, List.mem_append]
    rw [mem_occurrences bound l e, mem_occurrencesItems bound l es, free]
    tauto

theorem mem_occurrencesParts : ∀ (bound : List String) (l : Bool) (es : List Part),
    n ∈ namesOf (occurrencesParts bound l es) ↔
      n ∉ bound ∧ n ∈ namesOf (occurrencesParts [] false es)
  | bound, l, [] => by simp [occurrencesParts]
  | bound, l, .text _ :: es => by
    rw [occurrencesParts, occurrencesParts]
    exact mem_occurrencesParts bound l es
  | bound, l, .interp e :: es => by
    simp only [occurrencesParts, List.map_append, List.mem_append]
    rw [mem_occurrences bound l e, mem_occurrencesParts bound l es, free]
    tauto

theorem mem_occurrencesStatements : ∀ (bound : List String) (l : Bool) (ss : List Statement),
    n ∈ namesOf (occurrencesStatements bound l ss) ↔
      n ∉ bound ∧ n ∈ namesOf (occurrencesStatements [] false ss)
  | bound, l, [] => by simp [occurrencesStatements]
  | bound, l, .bind p e :: ss => by
    simp only [occurrencesStatements, List.map_append, List.mem_append]
    rw [mem_occurrencesPattern bound l p, mem_occurrences bound l e,
      mem_occurrencesStatements (p.names ++ bound) l ss,
      mem_occurrencesStatements (p.names ++ []) false ss, free]
    simp only [List.mem_append, List.not_mem_nil, or_false]
    tauto
  | bound, l, .eval e :: ss => by
    simp only [occurrencesStatements, List.map_append, List.mem_append]
    rw [mem_occurrences bound l e, mem_occurrencesStatements bound l ss, free]
    tauto
  | bound, l, .load names module :: ss => by
    simp only [occurrencesStatements]
    rw [mem_occurrencesStatements (names ++ bound) l ss,
      mem_occurrencesStatements (names ++ []) false ss]
    simp only [List.mem_append, List.not_mem_nil, or_false]
    tauto

theorem mem_occurrencesCases : ∀ (bound : List String) (l : Bool) (cs : List Case),
    n ∈ namesOf (occurrencesCases bound l cs) ↔
      n ∉ bound ∧ n ∈ namesOf (occurrencesCases [] false cs)
  | bound, l, [] => by simp [occurrencesCases]
  | bound, l, .mk p none body :: cs => by
    simp only [occurrencesCases, List.map_append, List.mem_append]
    rw [mem_occurrencesPattern bound l p, mem_occurrences (p.names ++ bound) l body,
      mem_occurrences (p.names ++ []) false body, mem_occurrencesCases bound l cs]
    simp only [List.mem_append, List.not_mem_nil, or_false]
    tauto
  | bound, l, .mk p (some guard) body :: cs => by
    simp only [occurrencesCases, List.map_append, List.mem_append]
    rw [mem_occurrencesPattern bound l p, mem_occurrences (p.names ++ bound) l guard,
      mem_occurrences (p.names ++ []) false guard, mem_occurrences (p.names ++ bound) l body,
      mem_occurrences (p.names ++ []) false body, mem_occurrencesCases bound l cs]
    simp only [List.mem_append, List.not_mem_nil, or_false]
    tauto

theorem mem_occurrencesPattern : ∀ (bound : List String) (l : Bool) (p : Pattern),
    n ∈ namesOf (occurrencesPattern bound l p) ↔
      n ∉ bound ∧ n ∈ namesOf (occurrencesPattern [] false p)
  | bound, l, .wildcard | bound, l, .binding _ | bound, l, .literal _ => by
    simp [occurrencesPattern]
  | bound, l, .object fields => by
    rw [occurrencesPattern, occurrencesPattern]
    exact mem_occurrencesFields bound l fields
  | bound, l, .array items _ => by
    rw [occurrencesPattern, occurrencesPattern]
    exact mem_occurrencesPatterns bound l items
  | bound, l, .type ty inner => by
    simp only [occurrencesPattern, List.map_append, List.mem_append]
    rw [mem_occurrences bound l ty, mem_occurrencesPattern bound l inner, free]
    tauto

theorem mem_occurrencesFields : ∀ (bound : List String) (l : Bool)
    (fields : List (String × Pattern)),
    n ∈ namesOf (occurrencesFields bound l fields) ↔
      n ∉ bound ∧ n ∈ namesOf (occurrencesFields [] false fields)
  | bound, l, [] => by simp [occurrencesFields]
  | bound, l, (_, p) :: fields => by
    simp only [occurrencesFields, List.map_append, List.mem_append]
    rw [mem_occurrencesPattern bound l p, mem_occurrencesFields bound l fields]
    tauto

theorem mem_occurrencesPatterns : ∀ (bound : List String) (l : Bool) (ps : List Pattern),
    n ∈ namesOf (occurrencesPatterns bound l ps) ↔
      n ∉ bound ∧ n ∈ namesOf (occurrencesPatterns [] false ps)
  | bound, l, [] => by simp [occurrencesPatterns]
  | bound, l, p :: ps => by
    simp only [occurrencesPatterns, List.map_append, List.mem_append]
    rw [mem_occurrencesPattern bound l p, mem_occurrencesPatterns bound l ps]
    tauto

end

lemma mentions_iff {e : Term} : e.mentions n ↔ n ∈ namesOf e.free := by
  simp [mentions]

lemma mentions_mk {node : Node} {span : Option Span} :
    (mk node span).mentions n ↔ n ∈ namesOf (occurrencesNode [] false node) := by
  rw [mentions_iff, free, occurrences]

lemma uses_eq_zero {e : Term} : e.uses n = 0 ↔ e.mentions n = false := by
  have hfold : ∀ (os : List Occurrence) (k : Nat),
      os.foldl (fun n' o => if o.name = n then n' + (if o.inLambda then 2 else 1) else n') k = 0 ↔
        k = 0 ∧ ∀ o ∈ os, o.name ≠ n := by
    intro os
    induction os with
    | nil => simp
    | cons o os ih =>
      intro k
      rw [List.foldl_cons, ih, List.forall_mem_cons]
      by_cases ho : o.name = n <;> simp [ho]
      split_ifs <;> simp
  rw [uses, hfold]
  simp [mentions]

end Term

/-! ### New names -/

lemma Association.contains_iff {κ α : Type} [DecidableEq κ] {name : κ} {entries : List (κ × α)} :
    contains name entries ↔ name ∈ names entries := by
  induction entries with
  | nil => simp [contains, find?, names]
  | cons entry entries ih =>
    obtain ⟨key, value⟩ := entry
    simp only [contains, find?, names, List.map_cons, List.mem_cons] at ih ⊢
    split_ifs with hkey
    · simp [hkey]
    · rw [ih]
      simp [Ne.symm hkey]

namespace Session

variable {session : Session} {scope : Scope} {taken : String → Bool} {base : String}

lemma numbered_injective (base : String) :
    Function.Injective fun i : Nat => base ++ "_" ++ toString i := by
  intro i j h
  have hrepr : Nat.repr i = Nat.repr j := by simpa [String.append_right_inj] using h
  have hdigits : Nat.toDigits 10 i = Nat.toDigits 10 j := by
    rw [← Nat.toList_repr, ← Nat.toList_repr, hrepr]
  rw [← Nat.ofDigitChars_toDigits (b := 10) (n := i) (by decide) (by decide), hdigits,
    Nat.ofDigitChars_toDigits (by decide) (by decide)]

lemma not_taken_numberedName {fuel i k : Nat} (hi : i < fuel)
    (h : taken (base ++ "_" ++ toString (k + i)) = false) :
    taken (numberedName taken base fuel k) = false := by
  induction fuel generalizing i k with
  | zero => exact absurd hi (Nat.not_lt_zero i)
  | succ fuel ih =>
    simp only [numberedName]
    split_ifs with hk
    · cases i with
      | zero => exact absurd (h.symm.trans hk) (by simp)
      | succ i => exact ih (Nat.lt_of_succ_lt_succ hi) (by rwa [Nat.succ_add_eq_add_succ])
    · simpa using hk

lemma isTaken_iff {name : String} : session.isTaken scope name ↔
    name ∈ Association.names scope.residual ++ session.reserved := by
  rw [isTaken, Bool.or_eq_true, Scope.hasResidualName, Association.contains_iff,
    List.contains_iff_mem, List.mem_append]

lemma not_isTaken_freshName (session : Session) (base : String) (scope : Scope) :
    session.isTaken scope (session.freshName base scope) = false := by
  unfold freshName
  split_ifs with hbase
  · by_contra hall
    let names := Association.names scope.residual ++ session.reserved
    have htaken : ∀ i < names.length + 1,
        base ++ "_" ++ toString (1 + i) ∈ names := by
      intro i hi
      refine isTaken_iff.mp ?_
      by_contra hfree
      refine hall (not_taken_numberedName (i := i) ?_ (by simpa using hfree))
      simpa [names, Association.names] using hi
    have hsub : (List.range (names.length + 1)).map (fun i => base ++ "_" ++ toString (1 + i)) ⊆
        names := by
      intro name hname
      obtain ⟨i, hi, rfl⟩ := List.mem_map.mp hname
      exact htaken i (List.mem_range.mp hi)
    have hnodup : ((List.range (names.length + 1)).map
        (fun i => base ++ "_" ++ toString (1 + i))).Nodup :=
      List.nodup_range.map fun i j h => Nat.add_left_cancel (numbered_injective base h)
    have hle := (List.subperm_of_subset hnodup hsub).length_le
    rw [List.length_map, List.length_range] at hle
    exact Nat.not_succ_le_self _ hle
  · simpa using hbase

lemma freshName_notMem (session : Session) (base : String) (scope : Scope) :
    session.freshName base scope ∉ Association.names scope.residual ++ session.reserved := by
  intro h
  rw [← isTaken_iff, not_isTaken_freshName] at h
  cases h

lemma numberedName_ne {c : Char} (hbase : base ≠ c.toString) (fuel k : Nat) :
    numberedName taken base fuel k ≠ c.toString := by
  induction fuel generalizing k with
  | zero => exact hbase
  | succ fuel ih =>
    simp only [numberedName]
    split_ifs
    · exact ih (k + 1)
    · intro h
      have hlength := congrArg String.length h
      have hpos : 0 < (toString k).length := Nat.length_repr_pos
      have hscore : "_".length = 1 := rfl
      rw [String.length_append, String.length_append, hscore] at hlength
      have hone : c.toString.length = 1 := by simp
      omega

lemma freshName_ne {c : Char} (hbase : base ≠ c.toString) :
    session.freshName base scope ≠ c.toString := by
  unfold freshName
  split_ifs
  · exact numberedName_ne hbase _ _
  · exact hbase

end Session

end Stagewise
