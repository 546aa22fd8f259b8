import Stagewise.Proofs.Coincidence
import Stagewise.Proofs.MatchedParts
import Stagewise.Proofs.PatternReadings
import Stagewise.Term.Walk

/-! Programs without functions have the same outcome, value or error, in any two environments that
agree on the names they mention. -/

set_option autoImplicit false

namespace Stagewise

open Association (find? names)
open Occurrence (namesOf)

/-! ### Imports and matching -/

namespace Environment

lemma load_eq (imports : Imports) (module : String) (loaded : List String) :
    (∃ bs : Bindings, names bs = loaded ∧
        ∀ env : Environment, env.load imports module loaded = .ok (env.bindAll bs)) ∨
      ∃ err, ∀ env : Environment, env.load imports module loaded = .error err := by
  induction loaded with
  | nil => exact .inl ⟨[], rfl, fun env => rfl⟩
  | cons name loaded ih =>
    cases hname : imports.resolve? module name with
    | none => exact .inr ⟨_, fun env => by simp only [Environment.load, hname]; rfl⟩
    | some found =>
      cases found with
      | declared c => exact .inr ⟨_, fun env => by simp only [Environment.load, hname]; rfl⟩
      | value v =>
        simp only [Environment.load, hname]
        obtain ⟨bs, rfl, hbs⟩ | ⟨err, herr⟩ := ih
        · exact .inl ⟨(name, v) :: bs, rfl, fun env => hbs _⟩
        · exact .inr ⟨err, fun env => herr _⟩

end Environment

namespace Pattern

variable {bs bs' : Bindings}

lemma matchIn_unique {s : Setting} {env env' : Environment} {p : Pattern} {v : Value}
    (h : p.matchIn s env v = .ok (some bs)) (h' : p.matchIn s env' v = .ok (some bs')) :
    bs' = bs := by
  rw [matchIn_eq_matchWith] at h h'
  exact matchWith_unique h h'

lemma names_of_matchIn {s : Setting} {env : Environment} {p : Pattern} {v : Value}
    (h : p.matchIn s env v = .ok (some bs)) : Association.names bs = p.names := by
  rw [matchIn_eq_matchWith] at h
  exact names_of_matchWith h

end Pattern

/-! ### Programs without functions -/

def Node.isLambda : Node → Bool
  | .lambda _ => true
  | _ => false

def NoLambda (ts : List Term) : Prop := ∀ t ∈ ts, t.node.isLambda = false

def Regime.withoutLambda : Regime where
  exact := true
  term t := t.node.isLambda = false
  error _ := True
  failure _ _ := trivial
  withSpan _ _ := trivial
  assertion _ _ _ := trivial
  thrown _ _ := trivial
  lambda h := by cases h

lemma Setting.respects_withoutLambda (s : Setting) : s.Respects .withoutLambda := by
  have hrefl (v : Value) : v.AlikeIn .withoutLambda v := .refl (.inl rfl) v
  refine ⟨fun f f' args args' hf hargs => ?_, fun _ _ v _ => hrefl v, fun v _ _ => hrefl v⟩
  rw [hf.eq_of_exact rfl, Value.AlikeIn.eqItems_of_exact rfl hargs]
  cases s.apply f' args' with
  | ok v => exact hrefl v
  | error e => exact ⟨trivial, rfl⟩

theorem Term.eval_congr {s : Setting} {e : Term} {env env' : Environment} (hl : NoLambda e.walk)
    (h : ∀ n ∈ namesOf e.free, find? n env = find? n env') : e.eval s env = e.eval s env' := by
  have hserves : Environment.Serves .withoutLambda e.free e.walk env env' := by
    refine ⟨hl, fun n hn => ?_⟩
    rw [h n hn]
    cases find? n env' with
    | none => exact .none
    | some v => exact .some (.refl (.inl rfl) v)
  have hagree := e.agree_eval s.respects_withoutLambda hserves
  cases hx : e.eval s env <;> cases hy : e.eval s env' <;> rw [hx, hy] at hagree
  · next err err' =>
    have heq : err.map id = err'.map id := hagree.2
    rw [← err.map_id, heq, err'.map_id]
  · exact hagree.elim
  · exact hagree.elim
  · rw [hagree.eq_of_exact rfl]

end Stagewise
