import Stagewise.Proofs.Patterns

/-! Matches on known values. What a pattern tests is compared with the description of the value; a
case is passed over where the two are disjoint and chosen where the test follows. The choice is the
one of the evaluation as long as the value fails the patterns before for a reason that its
description shows. -/

set_option autoImplicit false

namespace Stagewise

open Association

def Case.isPlain : Case → Bool
  | .mk p none body =>
    p.isTypeFree && (body.asLiteral?.isSome || body.asVar?.any p.names.contains)
  | _ => false

def Case.areDecided (v : Value) : List Case → Bool
  | [] => true
  | .mk p _ _ :: cases => (p.bindings? v).isSome || (p.clashes v && Case.areDecided v cases)

abbrev Stage.Succeeds {α : Type} (step : Stage α) (P : α → Prop) : Prop :=
  Stage.Yields (fun _ => True) (fun _ => False) step P

def Staged.Gives (s : Staged) (v : Value) : Prop :=
  s.value? = some v ∧ v.isData fun _ => true

open Stage

lemma Environment.exists_find?_bindAll {bs : Bindings} {name : String} (h : name ∈ names bs) :
    ∃ q ∈ bs, find? name (Environment.bindAll [] bs) = some q.2 := by
  have hrev : Environment.bindAll [] bs = bs.reverse := by
    simp [Environment.bindAll]
  have hsome : (find? name bs.reverse).isSome := by
    rw [find?_isSome_iff]
    simpa [names] using h
  obtain ⟨w, hw⟩ := Option.isSome_iff_exists.mp hsome
  exact ⟨(name, w), List.mem_reverse.mp (mem_of_find?_eq_some hw), hrev ▸ hw⟩

lemma Case.stage_body {p : Pattern} {body : Term} {bs : Bindings} {scope : Scope} {ctx : Context}
    {s : Setting} {w : Value} (hplain : (Case.mk p none body).isPlain)
    (hnames : Pattern.Names p.names bs) (hscope : scope.Mirrors (Environment.bindAll [] bs))
    (heval : body.eval s (Environment.bindAll [] bs) = .ok w) :
    Succeeds (body.stage ctx scope) fun t => t.Gives w := by
  obtain ⟨node, span⟩ := body
  replace heval := Term.eval_mk_eq_ok.mp heval
  rw [Term.stage]
  refine .mapError ?_ fun _ h => h
  cases node with
  | literal l =>
    obtain rfl := Except.ok.inj heval
    exact .pure ⟨rfl, Value.isData_of_literal l⟩
  | var name =>
    have hname : name ∈ names bs := by
      rw [hnames.1]
      simpa [Case.isPlain, Term.asLiteral?, Term.asVar?] using (Bool.and_eq_true_iff.mp hplain).2
    obtain ⟨q, hq, hfind⟩ := Environment.exists_find?_bindAll hname
    obtain rfl : q.2 = w := by simpa [Node.eval, Environment.get, hfind] using heval
    have hknown := hscope name q.2 hfind
    rw [Scope.known?] at hknown
    obtain ⟨t, ht, hvalue⟩ := Option.bind_eq_some_iff.mp hknown
    rw [Node.stage, ht]
    exact .pure ⟨hvalue, (hnames.2 q hq).data⟩
  | _ => simp [Case.isPlain, Term.asLiteral?, Term.asVar?] at hplain

lemma Case.stageList_yields {v w : Value} {cases : List Case} {s : Setting} {ctx : Context}
    {scope : Scope} {subject : Staged} {name : Option String} {remaining : Constraint}
    (hv : v.IsPlain) (hplain : ∀ c ∈ cases, c.isPlain) (hdecided : Case.areDecided v cases)
    (hsubject : subject.Shows v) (hknown : remaining.Determines v)
    (heval : Case.evalList s [] v cases = .ok w) :
    Succeeds (Case.stageList ctx scope subject name remaining [] cases) fun r =>
      ∃ t, r = .certain t ∧ t.Gives w := by
  induction cases with
  | nil => simp [Case.evalList, fail] at heval
  | cons c cases ih =>
    obtain ⟨p, guard, body⟩ := c
    obtain ⟨hcase, hcases⟩ := List.forall_mem_cons.mp hplain
    cases guard with
    | some => simp [Case.isPlain] at hcase
    | none =>
      have hfree : p.isTypeFree := (Bool.and_eq_true_iff.mp hcase).1
      have hnever := Constraint.not_never_of_holds hknown.holds
      rw [Case.evalList, Pattern.matchIn_eq_bindings? s [] hfree] at heval
      rw [Case.stageList, hnever]
      refine (Pattern.lower_yields hfree).bind fun r hr => ?_
      obtain ⟨test, residual⟩ := r
      obtain rfl : test = p.tested := hr
      have hfits := Pattern.fits_tested p
      cases hb : p.bindings? v with
      | none =>
        obtain ⟨hclash, hrest⟩ : p.clashes v ∧ Case.areDecided v cases := by
          simpa [Case.areDecided, hb] using hdecided
        have hdisjoint :=
          hknown.disjoint hv.covers hfits (Pattern.not_passes_tested hv.covers hclash)
        simp only [hdisjoint, if_true]
        rw [hb] at heval
        exact ih hcases hrest heval
      | some bs =>
        have hholds : p.tested.Holds (fun _ => True) v :=
          Pattern.holds_tested hv.covers (by simp [hb])
        have hpossible :=
          Constraint.not_disjoint_of_holds hv.covers hknown.fits hfits hknown.holds hholds
        have halways := hknown.implies hv.covers hfits hholds
        rw [hb] at heval
        have hboth : (Constraint.conj [remaining, p.tested]).Fits .shape false .plain :=
          Constraint.fits_conj.mpr ⟨by simp, by simp [hknown.fits, hfits]⟩
        have hnormal := Constraint.isNormal_simplify_of_shape hboth
        simp only [hpossible, halways]
        generalize (Constraint.conj [remaining, p.tested]).simplify = narrowed at hnormal
        have hnarrowed : narrowed.Holds (fun _ => True) v :=
          (hnormal.holds _ v hv.covers).mpr (by simp [hknown.holds, hholds])
        have hinner := hsubject.refine hv hnormal.tidy.of_tidy hnarrowed
        have hempty : scope.Mirrors [] := fun _ _ h => nomatch h
        refine (Pattern.destructures_of_isTypeFree hfree hv hinner hb
          (hempty.narrow name narrowed)).bind fun r hr => ?_
        refine .bind (P := (· = some (none, r.1))) (.pure rfl) ?_
        rintro _ rfl
        have hnames := Pattern.names_of_bindings? hv hb
        refine (Case.stage_body hcase hnames hr heval).bind fun t ht => ?_
        exact .pure ⟨t, rfl, ht⟩

lemma Pending.prepare_shows {v : Value} (hv : v.IsPlain) (scope : Scope) (hint : String) :
    Succeeds (Pending.prepare scope subjectName hint (.ofValue v)) fun p =>
      p.bound.Shows v ∧ p.bound.constraint = .ofValue v ∧
        ∀ ctx s w, Staged.Gives s w → Succeeds (p.finish ctx s) fun t => t.Gives w := by
  have hshows := Staged.shows_ofValue hv
  have hdirect : Succeeds (pure (Pending.direct scope subjectName (.ofValue v))) fun p =>
      p.bound.Shows v ∧ p.bound.constraint = .ofValue v ∧
        ∀ ctx s w, Staged.Gives s w → Succeeds (p.finish ctx s) fun t => t.Gives w :=
    .pure ⟨hshows, rfl, fun _ _ _ hs => .pure hs⟩
  have hvisible : (scope.visibleBinding? (.ofValue v)).isSome = false := rfl
  unfold Pending.prepare
  rw [if_neg (by decide), hvisible, if_neg (by simp), Staged.ofValue]
  simp only
  split_ifs with hcompound
  · have hfresh : Succeeds (Stage.freshBinding hint scope) fun _ => True := by
      refine .bind (P := fun _ => True) (.get_bind fun _ _ => .pure trivial) fun name _ => ?_
      exact .bind (P := fun _ => True) (.modifyGet fun s hs => ⟨trivial, hs⟩) fun _ _ =>
        .pure trivial
    refine hfresh.bind fun binding _ => .pure ⟨?_, rfl, fun ctx s w hs => ?_⟩
    · exact ⟨_, some binding, rfl, hv.determines.fits, hv.determines.holds⟩
    · obtain ⟨hvalue, hdata⟩ := hs
      cases s <;> simp only [Staged.value?, reduceCtorEq, Option.some.injEq] at hvalue
      subst hvalue
      exact .pure ⟨rfl, hdata⟩
  · exact hdirect

/-- Staging a match on a known value gives the value that it evaluates to, if each case before the
one that is taken clashes with the value. -/
theorem Term.staged_matchOn_of_run {v w : Value} {cases : List Case} {imports : Imports}
    {options : Options} (hv : v.IsPlain) (hcases : ∀ c ∈ cases, c.isPlain)
    (hdecided : Case.areDecided v cases)
    (hrun : (Term.matchOn (.value v) cases).run imports options = .ok w) :
    ∃ p, (Term.matchOn (.value v) cases).staged imports options = .ok p ∧
      p.value? = some w := by
  have heval : Case.evalList (.ofLimit imports options.maxCallDepth) [] v cases = .ok w := by
    rw [Term.run, Term.matchOn, Term.of, Term.eval_mk_eq_ok, Node.eval] at hrun
    exact hrun
  have hstage : Succeeds ((Term.matchOn (.value v) cases).stage (.ofOptions options imports) .empty)
      fun t => t.Gives w := by
    refine .mapError ?_ fun _ h => h
    rw [Node.stage]
    have hsubject : Succeeds ((Term.value v).stage (.ofOptions options imports) .empty)
        (· = .ofValue v) := fun _ h => ⟨rfl, h⟩
    refine hsubject.bind ?_
    rintro _ rfl
    refine (Pending.prepare_shows hv .empty "subject").bind fun p hp => ?_
    obtain ⟨hbound, hconstraint, hfinish⟩ := hp
    have hknown := hv.determines.simplify hv.covers
    rw [hconstraint]
    refine (Case.stageList_yields hv hcases hdecided hbound hknown heval).bind fun r hr => ?_
    obtain ⟨t, rfl, ht⟩ := hr
    exact hfinish _ t w ht
  obtain ⟨p, hp, hvalue, _⟩ := Term.staged_of_stage trivial hstage
  exact ⟨p, hp, hvalue⟩

def Value.ring : Value :=
  .object [("kind", .string "ring"), ("sizes", .array [.ofNat 1, .ofNat 2])]

def Case.outerSize : List Case :=
  [.mk (.object [("kind", .literal (.string "disc"))]) none (.number (.ofNat 0)),
    .mk (.object [("kind", .literal (.string "ring")),
      ("sizes", .array [.wildcard, .binding "outer"] none)]) none (.var "outer"),
    .mk .wildcard none (.number (.ofNat 0))]

theorem Term.staged_outerSize :
    (Term.matchOn (.value .ring) Case.outerSize).run [] {} = .ok (.ofNat 2) ∧
      ∃ p, (Term.matchOn (.value .ring) Case.outerSize).staged [] {} = .ok p ∧
        p.value? = some (.ofNat 2) := by
  have hrun : (Term.matchOn (.value .ring) Case.outerSize).run [] {} = .ok (.ofNat 2) := rfl
  have hplain : Value.ring.IsPlain := ⟨by decide, by decide, by decide, by decide⟩
  exact ⟨hrun, Term.staged_matchOn_of_run hplain (by decide) (by decide) hrun⟩

/-- The object pattern of `match [1] { {} => 1, _ => 2 }` rejects the array, but its test accepts
arrays too: evaluation takes the second case and staging the first. -/
theorem Term.staged_objectPattern_array :
    let e := Term.matchOn (.value (.array [.ofNat 1]))
      [.mk (.object []) none (.number (.ofNat 1)), .mk .wildcard none (.number (.ofNat 2))]
    e.run [] {} = .ok (.ofNat 2) ∧
      ((e.staged [] {}).toOption.bind StagedProgram.value?).bind Value.asNumber? =
        some (.ofNat 1) :=
  ⟨rfl, by decide +kernel⟩

end Stagewise
