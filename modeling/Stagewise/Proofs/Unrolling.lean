import Stagewise.Proofs.Termination
import Stagewise.Proofs.UnfoldedMembership

/-! Whether the algebra comes to an end where there is recursion. A question is resolved when its
answer is reached by a finite recursion. Guarded recursion is not enough for that: where the
variable of a recursive constraint has other conjuncts beside it, unrolling the constraint once
makes the same conjunction again. -/

set_option autoImplicit false

namespace Stagewise.Constraint

namespace Answers

variable {l : Answers} {q : Question}

/-- The recursion from a question is finite, and the answers are those it comes to. -/
inductive Resolves (l : Answers) : Question → Prop
  | intro {q : Question} : l.step.Agree l q → (∀ q', l.Asks q q' → l.Resolves q') → l.Resolves q

lemma Resolves.agree (h : l.Resolves q) : l.step.Agree l q := by
  cases h with
  | intro ha _ => exact ha

lemma Resolves.asked {q' : Question} (h : l.Resolves q) (hq : l.Asks q q') : l.Resolves q' := by
  cases h with
  | intro _ hr => exact hr q' hq

lemma Resolves.not_cyclic (h : l.Resolves q) : ¬ Relation.TransGen l.Asks q q := by
  induction h with
  | @intro q _ _ ih =>
    intro hcycle
    obtain ⟨q', hfirst, hrest⟩ := Relation.TransGen.head'_iff.mp hcycle
    exact ih q' hfirst (.tail' hrest hfirst)

structure ResolvesImplies (l : Answers) (a b : Constraint) : Prop where
  left : l.Resolves (.normal a)
  right : l.Resolves (.normal b)
  normal : l.Resolves (.entails [] (l.normal a) (l.normal b))

end Answers

def growing : Constraint := .fix (.field "a" (.conj [.kind .object, .bvar 0]))

section Growing

variable {l : Answers}

lemma unfold_growing : growing.unfold = .field "a" (.conj [.kind .object, growing]) := rfl

lemma normal_growing (h : l.Resolves (.normal growing)) : l.normal growing = growing := by
  have hbody : l.Resolves (.normal (.field "a" (.conj [.kind .object, .bvar 0]))) :=
    h.asked (.part (by simp [growing, children]))
  have hinner : l.Resolves (.normal (.conj [.kind .object, .bvar 0])) :=
    hbody.asked (.part (by simp [children]))
  have hobject : l.Resolves (.normal (.kind .object)) := hinner.asked (.part (by simp [children]))
  have hvar : l.Resolves (.normal (.bvar 0)) := hinner.asked (.part (by simp [children]))
  have hconj := hinner.asked (.members _)
  have eobject : Constraint.kind .object = l.normal (.kind .object) := hobject.agree
  have evar : Constraint.bvar 0 = l.normal (.bvar 0) := hvar.agree
  rw [List.map_cons, List.map_cons, List.map_nil, ← eobject, ← evar] at hconj
  have econj : Constraint.conj [.kind .object, .bvar 0] = l.conj true [.kind .object, .bvar 0] :=
    hconj.agree
  have einner : l.conj true [l.normal (.kind .object), l.normal (.bvar 0)] =
      l.normal (.conj [.kind .object, .bvar 0]) := hinner.agree
  have ebody : finishPart (.field "a") (l.normal (.conj [.kind .object, .bvar 0])) =
      l.normal (.field "a" (.conj [.kind .object, .bvar 0])) := hbody.agree
  have efix : finishFix (l.normal (.field "a" (.conj [.kind .object, .bvar 0]))) =
      l.normal growing := h.agree
  rw [← efix, ← ebody, ← einner, ← eobject, ← evar, ← econj]
  rfl

lemma not_resolves_conj_growing : ¬ l.Resolves (.normal (.conj [.kind .object, growing])) := by
  intro h
  have hobject : l.Resolves (.normal (.kind .object)) := h.asked (.part (by simp [children]))
  have hgrowing : l.Resolves (.normal growing) := h.asked (.part (by simp [children]))
  have eobject : Constraint.kind .object = l.normal (.kind .object) := hobject.agree
  have hmembers : l.Asks (.normal (.conj [.kind .object, growing]))
      (.conj true [.kind .object, growing]) := by
    have hasks := Answers.Asks.members (l := l) [.kind .object, growing]
    rwa [List.map_cons, List.map_cons, List.map_nil, ← eobject, normal_growing hgrowing] at hasks
  have hunfold : l.Asks (.conj true [.kind .object, growing]) (.normal growing.unfold) :=
    .unfold (by decide) (by decide) (List.mem_cons_of_mem _ List.mem_cons_self) (by decide)
  have hpart : l.Asks (.normal growing.unfold) (.normal (.conj [.kind .object, growing])) :=
    .part (by simp [unfold_growing, children])
  exact h.not_cyclic (.head hmembers (.head hunfold (.single hpart)))

lemma not_resolves_unfold_growing : ¬ l.Resolves (.normal growing.unfold) := fun h =>
  not_resolves_conj_growing (h.asked (.part (by simp [unfold_growing, children])))

end Growing

/-- A closed and guarded constraint whose conjunction with a kind, and whose comparison with it,
no finite recursion comes to an end with. -/
theorem unrolling_never_ends :
    growing.ClosedWithin 0 ∧ growing.isGuardedThroughout ∧
      ∀ l : Answers, ¬ l.Resolves (.normal (.conj [growing, .kind .object])) ∧
        ¬ l.ResolvesImplies growing (.kind .object) := by
  refine ⟨by decide, by decide, fun l => ⟨fun h => ?_, fun h => ?_⟩⟩
  · have hobject : l.Resolves (.normal (.kind .object)) := h.asked (.part (by simp [children]))
    have hgrowing : l.Resolves (.normal growing) := h.asked (.part (by simp [children]))
    have eobject : Constraint.kind .object = l.normal (.kind .object) := hobject.agree
    have hmembers := h.asked (.members _)
    rw [List.map_cons, List.map_cons, List.map_nil, ← eobject, normal_growing hgrowing] at hmembers
    exact not_resolves_unfold_growing
      (hmembers.asked (.unfold (by decide) (by decide) List.mem_cons_self (by decide)))
  · have hcompare := h.normal
    have eobject : Constraint.kind .object = l.normal (.kind .object) := h.right.agree
    rw [normal_growing h.left, ← eobject] at hcompare
    refine not_resolves_unfold_growing (hcompare.asked (.compare (by decide) (.unfoldLeft ?_)))
    exact ⟨Or.inl ⟨_, rfl⟩, rfl, by decide⟩

end Stagewise.Constraint
