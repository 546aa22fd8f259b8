import Mathlib.Data.List.Nodup
import Stagewise.Evaluation.Interpreter
import Stagewise.Proofs.Identity
import Stagewise.Term.Build

/-! Values without functions of the program. Evaluation leads from such values to such values
only, and each of them is the value of the program that denotes it. -/

set_option autoImplicit false

namespace Stagewise

namespace Association

variable {κ α β : Type} [DecidableEq κ]

lemma mem_names_put {name key : κ} {value : α} {entries : List (κ × α)} :
    key ∈ names (put name value entries) ↔ key = name ∨ key ∈ names entries := by
  induction entries with
  | nil => simp [put, names]
  | cons entry rest ih =>
    obtain ⟨k, old⟩ := entry
    by_cases hk : k = name
    · simp [put, names, hk]
    · simp only [names] at ih
      simp only [put, hk, if_false, names, List.map_cons, List.mem_cons, ih]
      tauto

lemma nodup_names_put {name : κ} {value : α} {entries : List (κ × α)}
    (h : (names entries).Nodup) : (names (put name value entries)).Nodup := by
  induction entries with
  | nil => simp [put, names]
  | cons entry rest ih =>
    obtain ⟨k, old⟩ := entry
    simp only [names, List.map_cons, List.nodup_cons] at h
    by_cases hk : k = name
    · subst hk
      simpa only [put, if_true, names, List.map_cons, List.nodup_cons] using h
    · have hmem : k ∉ names (put name value rest) := by
        rw [mem_names_put]
        exact not_or.mpr ⟨hk, h.1⟩
      simpa [put, names, hk] using ⟨by simpa [names] using hmem, ih h.2⟩

lemma forall_mem_put {P : α → Prop} {name : κ} {value : α} {entries : List (κ × α)}
    (hv : P value) (h : ∀ p ∈ entries, P p.2) : ∀ p ∈ put name value entries, P p.2 := by
  induction entries with
  | nil => simpa [put] using hv
  | cons entry rest ih =>
    obtain ⟨k, old⟩ := entry
    rw [List.forall_mem_cons] at h
    rw [put]
    split_ifs
    · exact List.forall_mem_cons.mpr ⟨hv, h.2⟩
    · exact List.forall_mem_cons.mpr ⟨h.1, ih h.2⟩

lemma put_of_notMem {name : κ} {value : α} {entries : List (κ × α)} (h : name ∉ names entries) :
    put name value entries = entries ++ [(name, value)] := by
  induction entries with
  | nil => rfl
  | cons entry rest ih =>
    obtain ⟨k, old⟩ := entry
    simp only [names, List.map_cons, List.mem_cons, not_or] at h
    rw [put, if_neg (Ne.symm h.1), ih h.2, List.cons_append]

end Association

open Association

mutual

/-- No function of the program is inside, the builtin functions are among `builtins`, and the
fields of every object have different names. -/
def Value.isData (builtins : String → Bool) : Value → Bool
  | .object fields => decide (names fields).Nodup && Value.areDataFields builtins fields
  | .array items => Value.areData builtins items
  | .closure _ _ => false
  | .builtin name => builtins name
  | _ => true
termination_by structural v => v

def Value.areDataFields (builtins : String → Bool) : List (String × Value) → Bool
  | [] => true
  | (_, v) :: fields => v.isData builtins && Value.areDataFields builtins fields
termination_by structural fields => fields

def Value.areData (builtins : String → Bool) : List Value → Bool
  | [] => true
  | v :: items => v.isData builtins && Value.areData builtins items
termination_by structural items => items

end

namespace Value

variable {builtins : String → Bool}

lemma areDataFields_iff {fields : List (String × Value)} :
    areDataFields builtins fields ↔ ∀ p ∈ fields, p.2.isData builtins := by
  induction fields with
  | nil => simp [areDataFields]
  | cons p fields ih => simp [areDataFields, ih]

lemma areData_iff {items : List Value} :
    areData builtins items ↔ ∀ v ∈ items, v.isData builtins := by
  induction items with
  | nil => simp [areData]
  | cons v items ih => simp [areData, ih]

@[simp] lemma isData_array {items : List Value} :
    (array items).isData builtins ↔ ∀ v ∈ items, v.isData builtins := by
  rw [isData, areData_iff]

@[simp] lemma isData_object {fields : List (String × Value)} :
    (object fields).isData builtins ↔
      (names fields).Nodup ∧ ∀ p ∈ fields, p.2.isData builtins := by
  simp [isData, areDataFields_iff]

@[simp] lemma isData_number (n : Number) : (number n).isData builtins := rfl

@[simp] lemma isData_string (s : String) : (string s).isData builtins := rfl

@[simp] lemma isData_bool (b : Bool) : (bool b).isData builtins := rfl

@[simp] lemma isData_type (c : Constraint) : (type c).isData builtins := rfl

@[simp] lemma isData_ofNat (n : Nat) : (ofNat n).isData builtins := rfl

@[simp] lemma isData_builtin (name : String) :
    (builtin name).isData builtins = builtins name := rfl

lemma isData_of_literal (l : Literal) : l.toValue.isData builtins := by
  cases l <;> rfl

end Value

/-! ### Operations -/

section Operations

variable {builtins : String → Bool}

lemma UnaryOp.isData_apply {op : UnaryOp} {v w : Value} (h : op.apply v = .ok w) :
    w.isData builtins := by
  cases op <;> cases v <;> simp only [UnaryOp.apply, fail, Except.ok.injEq, reduceCtorEq] at h <;>
    exact h ▸ rfl

lemma BinaryOp.isData_apply {op : BinaryOp} {a b w : Value} (h : op.apply a b = .ok w) :
    w.isData builtins := by
  unfold BinaryOp.apply at h
  split at h <;> (try split at h) <;>
    first
    | (obtain rfl := Except.ok.inj h; rfl)
    | cases h

lemma Value.isData_readField {v w : Value} {name : String} (hv : v.isData builtins)
    (h : v.readField name = .ok w) : w.isData builtins := by
  unfold Value.readField at h
  split at h
  · split at h
    · next fields _ hf =>
      obtain rfl := Except.ok.inj h
      exact (isData_object.mp hv).2 _ (mem_of_find?_eq_some hf)
    · cases h
  · split at h
    · obtain rfl := Except.ok.inj h
      rfl
    · cases h
  · split at h
    · obtain rfl := Except.ok.inj h
      rfl
    · cases h
  · cases h

lemma Value.isData_readIndex {v key w : Value} (hv : v.isData builtins)
    (h : v.readIndex key = .ok w) : w.isData builtins := by
  unfold Value.readIndex at h
  split at h
  · split at h
    · exact isData_readField hv h
    · cases h
  · split at h
    · next items _ hitem =>
      obtain rfl := Except.ok.inj h
      obtain ⟨_, _, hi⟩ := Option.bind_eq_some_iff.mp hitem
      exact isData_array.mp hv _ (List.mem_of_getElem? hi)
    · cases h
  · split at h
    · obtain rfl := Except.ok.inj h
      rfl
    · cases h
  · cases h

lemma Value.isData_put {fields : List (String × Value)} {name : String} {v : Value}
    (hf : (object fields).isData builtins) (hv : v.isData builtins) :
    (object (put name v fields)).isData builtins := by
  rw [isData_object] at hf ⊢
  exact ⟨nodup_names_put hf.1,
    forall_mem_put (P := fun v : Value => v.isData builtins) hv hf.2⟩

lemma Value.isData_putAll {fields more : List (String × Value)}
    (hf : (object fields).isData builtins) (hm : ∀ p ∈ more, p.2.isData builtins) :
    (object (putAll fields more)).isData builtins := by
  unfold putAll
  induction more generalizing fields with
  | nil => exact hf
  | cons p more ih =>
    rw [List.forall_mem_cons] at hm
    exact ih (isData_put hf hm.1) hm.2

end Operations

/-! ### Builtin functions -/

lemma Outcome.bind_eq_ok {α β : Type} {x : Outcome α} {f : α → Outcome β} {b : β} :
    x >>= f = .ok b ↔ ∃ a, x = .ok a ∧ f a = .ok b := by
  cases x <;> simp [bind, Except.bind]

namespace Builtin

variable {builtins : String → Bool} {args : List Value}

lemma isData_arg {i : Nat} {v : Value} (hargs : ∀ a ∈ args, a.isData builtins)
    (h : arg args i = .ok v) : v.isData builtins := by
  unfold arg at h
  split at h
  · next hv =>
    obtain rfl := Except.ok.inj h
    exact hargs _ (List.mem_of_getElem? hv)
  · cases h

lemma isData_arrayArg {i : Nat} {items : List Value} (hargs : ∀ a ∈ args, a.isData builtins)
    (h : arrayArg args i = .ok items) : ∀ v ∈ items, v.isData builtins := by
  obtain ⟨v, hv, h⟩ := Outcome.bind_eq_ok.mp h
  split at h
  · obtain rfl := Except.ok.inj h
    exact Value.isData_array.mp (isData_arg hargs hv)
  · cases h

lemma isData_objectArg {i : Nat} {fields : List (String × Value)}
    (hargs : ∀ a ∈ args, a.isData builtins) (h : objectArg args i = .ok fields) :
    ∀ p ∈ fields, p.2.isData builtins := by
  obtain ⟨v, hv, h⟩ := Outcome.bind_eq_ok.mp h
  split at h
  · obtain rfl := Except.ok.inj h
    exact (Value.isData_object.mp (isData_arg hargs hv)).2
  · cases h

def KeepsData (builtins : String → Bool) (apply : Apply) : Prop :=
  ∀ f args v, f.isData builtins → (∀ a ∈ args, a.isData builtins) → apply f args = .ok v →
    v.isData builtins

variable {apply : Apply} {callback : Value}

lemma isData_mapItems (happly : KeepsData builtins apply) (hf : callback.isData builtins)
    {items results : List Value} (hitems : ∀ v ∈ items, v.isData builtins)
    (h : mapItems apply callback items = .ok results) : ∀ v ∈ results, v.isData builtins := by
  induction items generalizing results with
  | nil => simp_all [mapItems]
  | cons v items ih =>
    rw [List.forall_mem_cons] at hitems
    obtain ⟨r, hr, h⟩ := Outcome.bind_eq_ok.mp h
    obtain ⟨rs, hrs, h⟩ := Outcome.bind_eq_ok.mp h
    obtain rfl := Except.ok.inj h
    exact List.forall_mem_cons.mpr
      ⟨happly _ _ _ hf (by simpa using hitems.1) hr, ih hitems.2 hrs⟩

lemma isData_filterItems {items results : List Value} (hitems : ∀ v ∈ items, v.isData builtins)
    (h : filterItems apply callback items = .ok results) : ∀ v ∈ results, v.isData builtins := by
  induction items generalizing results with
  | nil => simp_all [filterItems]
  | cons v items ih =>
    rw [List.forall_mem_cons] at hitems
    obtain ⟨r, hr, h⟩ := Outcome.bind_eq_ok.mp h
    split at h
    · obtain ⟨rs, hrs, h⟩ := Outcome.bind_eq_ok.mp h
      obtain rfl := Except.ok.inj h
      exact List.forall_mem_cons.mpr ⟨hitems.1, ih hitems.2 hrs⟩
    · exact ih hitems.2 h
    · cases h

lemma isData_foldItems (happly : KeepsData builtins apply) (hf : callback.isData builtins)
    {acc v : Value} {items : List Value} (hacc : acc.isData builtins)
    (hitems : ∀ v ∈ items, v.isData builtins)
    (h : foldItems apply callback acc items = .ok v) : v.isData builtins := by
  induction items generalizing acc with
  | nil => simp_all [foldItems]
  | cons w items ih =>
    rw [List.forall_mem_cons] at hitems
    obtain ⟨r, hr, h⟩ := Outcome.bind_eq_ok.mp h
    exact ih (happly _ _ _ hf (by simpa using ⟨hacc, hitems.1⟩) hr) hitems.2 h

lemma isData_collectEntries {fields result : List (String × Value)} {pairs : List Value}
    (hf : (Value.object fields).isData builtins) (hp : ∀ v ∈ pairs, v.isData builtins)
    (h : collectEntries fields pairs = .ok result) : (Value.object result).isData builtins := by
  fun_induction collectEntries fields pairs with
  | case1 => exact Except.ok.inj h ▸ hf
  | case2 fields name v pairs ih =>
    rw [List.forall_mem_cons, Value.isData_array] at hp
    exact ih (Value.isData_put hf (hp.1 v (by simp))) hp.2 h
  | case3 => cases h

lemma isData_buildType {v : Value} (h : buildType apply callback = .ok v) :
    v.isData builtins := by
  obtain ⟨w, _, h⟩ := Outcome.bind_eq_ok.mp h
  unfold closeType at h
  split at h
  · exact Except.ok.inj h ▸ rfl
  · cases h

theorem isData_run (happly : KeepsData builtins apply) (hargs : ∀ a ∈ args, a.isData builtins)
    {b : Builtin} {v : Value} (h : b.run apply args = .ok v) : v.isData builtins := by
  have harray {i : Nat} {items : List Value} (h : arrayArg args i = .ok items) :=
    isData_arrayArg hargs h
  have harg {i : Nat} {w : Value} (h : arg args i = .ok w) := isData_arg hargs h
  cases b <;> simp only [run] at h <;> obtain ⟨x, hx, h⟩ := Outcome.bind_eq_ok.mp h
  case length =>
    unfold lengthOf at h
    split at h
    · exact Except.ok.inj h ▸ rfl
    · exact Except.ok.inj h ▸ rfl
    · cases h
  case keys | fields =>
    exact Except.ok.inj h ▸ Value.isData_array.mpr (List.forall_mem_map.mpr fun _ _ => rfl)
  case values =>
    refine Except.ok.inj h ▸ Value.isData_array.mpr (List.forall_mem_map.mpr ?_)
    exact isData_objectArg hargs hx
  case entries =>
    refine Except.ok.inj h ▸ Value.isData_array.mpr (List.forall_mem_map.mpr fun p hp => ?_)
    simpa using isData_objectArg hargs hx p hp
  case concat =>
    obtain ⟨y, hy, h⟩ := Outcome.bind_eq_ok.mp h
    exact Except.ok.inj h ▸ Value.isData_array.mpr
      (List.forall_mem_append.mpr ⟨harray hx, harray hy⟩)
  case append =>
    obtain ⟨y, hy, h⟩ := Outcome.bind_eq_ok.mp h
    exact Except.ok.inj h ▸ Value.isData_array.mpr
      (List.forall_mem_append.mpr ⟨harray hx, by simpa using harg hy⟩)
  case slice =>
    obtain ⟨y, hy, h⟩ := Outcome.bind_eq_ok.mp h
    obtain ⟨z, hz, h⟩ := Outcome.bind_eq_ok.mp h
    refine Except.ok.inj h ▸ Value.isData_array.mpr fun v hv => ?_
    exact harray hx v (List.mem_of_mem_drop (List.mem_of_mem_take hv))
  case join =>
    obtain ⟨s, hs⟩ : ∃ s, v = .string s := by
      unfold joinTexts at h
      split at h
      · obtain ⟨y, hy, h⟩ := Outcome.bind_eq_ok.mp h
        exact ⟨_, (Except.ok.inj h).symm⟩
      · cases h
    exact hs ▸ rfl
  case range =>
    obtain ⟨y, hy, h⟩ := Outcome.bind_eq_ok.mp h
    unfold rangeOf at h
    split at h
    · exact Except.ok.inj h ▸ Value.isData_array.mpr (by simp [Value.isData])
    · cases h
  case map =>
    obtain ⟨y, hy, h⟩ := Outcome.bind_eq_ok.mp h
    obtain ⟨z, hz, h⟩ := Outcome.bind_eq_ok.mp h
    exact Except.ok.inj h ▸ Value.isData_array.mpr
      (isData_mapItems happly (harg hx) (harray hy) hz)
  case filter =>
    obtain ⟨y, hy, h⟩ := Outcome.bind_eq_ok.mp h
    obtain ⟨z, hz, h⟩ := Outcome.bind_eq_ok.mp h
    exact Except.ok.inj h ▸ Value.isData_array.mpr (isData_filterItems (harray hy) hz)
  case fold =>
    obtain ⟨y, hy, h⟩ := Outcome.bind_eq_ok.mp h
    obtain ⟨z, hz, h⟩ := Outcome.bind_eq_ok.mp h
    exact isData_foldItems happly (harg hx) (harg hz) (harray hy) h
  case recType => exact isData_buildType h
  case objectFromEntries =>
    obtain ⟨y, hy, h⟩ := Outcome.bind_eq_ok.mp h
    exact Except.ok.inj h ▸ isData_collectEntries (by simp [names]) (harray hx) hy
  case fieldType =>
    split at h
    · obtain ⟨y, hy, h⟩ := Outcome.bind_eq_ok.mp h
      exact Except.ok.inj h ▸ rfl
    · cases h
  case objectType =>
    split at h
    · obtain ⟨y, hy, h⟩ := Outcome.bind_eq_ok.mp h
      exact Except.ok.inj h ▸ rfl
    · cases h
  case includes | min | max | unionType | intersectionType | tupleType | typeImplies =>
    obtain ⟨y, hy, h⟩ := Outcome.bind_eq_ok.mp h
    exact Except.ok.inj h ▸ rfl
  case guard | toText | abs | floor | arrayType | literalType => exact Except.ok.inj h ▸ rfl

end Builtin

/-! ### The program that denotes a value -/

section Denotation

variable {builtins : String → Bool} {s : Setting} {env : Environment}

lemma Term.eval_mk_eq_ok {node : Node} {span : Option Span} {v : Value} :
    (Term.mk node span).eval s env = .ok v ↔ node.eval s env = .ok v := by
  rw [Term.eval]
  cases node.eval s env <;> simp [Except.mapError]

lemma Text.join_cons (text : String) (texts : List String) :
    Text.join "" (text :: texts) = text ++ Text.join "" texts := by
  cases texts <;> simp [Text.join]

lemma Node.eval_binary {op : BinaryOp} (hop : op.isLogical = false) {a b : Term} :
    (Node.binary op a b).eval s env = (do
      let x ← a.eval s env
      op.apply x (← b.eval s env)) := by
  cases op <;> first | rfl | simp [BinaryOp.isLogical] at hop

lemma Node.eval_logical {op : BinaryOp} (hop : op.isLogical) {a b : Term} {v : Value}
    (hv : (Node.binary op a b).eval s env = .ok v) :
    ∃ x, a.eval s env = .ok x ∧ ∃ c, x.condition = .ok c ∧
      (c = (op == .and) ∧ (∃ y, b.eval s env = .ok y ∧ ∃ d, y.condition = .ok d ∧ v = .bool d) ∨
        c ≠ (op == .and) ∧ v = .bool (op != .and)) := by
  cases op <;> simp only [BinaryOp.isLogical, Bool.false_eq_true] at hop
  all_goals
    rw [Node.eval] at hv
    obtain ⟨x, hx, hv⟩ := Outcome.bind_eq_ok.mp hv
    obtain ⟨c, hc, hv⟩ := Outcome.bind_eq_ok.mp hv
    refine ⟨x, hx, c, hc, ?_⟩
  case and =>
    cases c with
    | true =>
      obtain ⟨y, hy, hv⟩ := Outcome.bind_eq_ok.mp hv
      obtain ⟨d, hd, hv⟩ := Outcome.bind_eq_ok.mp hv
      exact Or.inl ⟨rfl, y, hy, d, hd, (Except.ok.inj hv).symm⟩
    | false => exact Or.inr ⟨by decide, (Except.ok.inj hv).symm⟩
  case or =>
    cases c with
    | true => exact Or.inr ⟨by decide, (Except.ok.inj hv).symm⟩
    | false =>
      obtain ⟨y, hy, hv⟩ := Outcome.bind_eq_ok.mp hv
      obtain ⟨d, hd, hv⟩ := Outcome.bind_eq_ok.mp hv
      exact Or.inl ⟨rfl, y, hy, d, hd, (Except.ok.inj hv).symm⟩

def Environment.Provides (builtins : String → Bool) (env : Environment) : Prop :=
  ∀ name, builtins name → env.get name = .ok (.builtin name)

lemma Node.eval_call {callee : Term} {args : List Term}
    (hform : env.form? callee = none)
    (hfield : ∀ e name cspan, callee ≠ .mk (.field e name) cspan) :
    (Node.call callee args).eval s env = (do
      let f ← callee.eval s env
      s.apply f (← Term.evalList s env args)) := by
  rw [Node.eval, hform]
  exact fun e name cspan h => hfield e name cspan h

mutual

theorem Term.eval_ofValue? : ∀ {v : Value}, v.isData builtins → ∃ e, Term.ofValue? v = some e ∧
    ∀ s env, Environment.Provides builtins env → e.eval s env = .ok v
  | .number n, _ => ⟨.of (.literal (.number n)), rfl, fun _ _ _ => Term.eval_mk_eq_ok.mpr rfl⟩
  | .string t, _ => ⟨.of (.literal (.string t)), rfl, fun _ _ _ => Term.eval_mk_eq_ok.mpr rfl⟩
  | .bool b, _ => ⟨.of (.literal (.bool b)), rfl, fun _ _ _ => Term.eval_mk_eq_ok.mpr rfl⟩
  | .null, _ => ⟨.of (.literal .null), rfl, fun _ _ _ => Term.eval_mk_eq_ok.mpr rfl⟩
  | .type c, _ => ⟨.of (.value (.type c)), rfl, fun _ _ _ => Term.eval_mk_eq_ok.mpr rfl⟩
  | .builtin name, h =>
    ⟨.of (.var name), rfl, fun _ _ hb => Term.eval_mk_eq_ok.mpr (hb name h)⟩
  | .object fields, h => by
    rw [Value.isData_object] at h
    obtain ⟨entries, he, hv⟩ := Term.eval_entriesOfFields? h.2
    refine ⟨_, by rw [Term.ofValue?, he]; rfl, fun s env hb => Term.eval_mk_eq_ok.mpr ?_⟩
    simp [Node.eval, hv s env hb [] (by simpa using h.1), pure, Except.pure, bind, Except.bind]
  | .array items, h => by
    obtain ⟨terms, he, hv⟩ := Term.eval_itemsOfValues? (Value.isData_array.mp h)
    refine ⟨_, by rw [Term.ofValue?, he]; rfl, fun s env hb => Term.eval_mk_eq_ok.mpr ?_⟩
    simp [Node.eval, hv s env hb, pure, Except.pure, bind, Except.bind]
  | .closure _ _, h => by simp [Value.isData] at h

theorem Term.eval_entriesOfFields? :
    ∀ {fields : List (String × Value)}, (∀ p ∈ fields, p.2.isData builtins) →
      ∃ entries, Term.entriesOfFields? fields = some entries ∧
        ∀ s env, Environment.Provides builtins env → ∀ acc, (names (acc ++ fields)).Nodup →
          Entry.evalList s env acc entries = .ok (acc ++ fields)
  | [], _ => ⟨[], rfl, fun _ _ _ acc _ => by simp [Entry.evalList]⟩
  | (name, v) :: fields, h => by
    rw [List.forall_mem_cons] at h
    obtain ⟨e, he, hv⟩ := Term.eval_ofValue? h.1
    obtain ⟨entries, hes, hvs⟩ := Term.eval_entriesOfFields? h.2
    refine ⟨.field name e :: entries, by simp [Term.entriesOfFields?, he, hes],
      fun s env hb acc hd => ?_⟩
    have hn : name ∉ names acc := by
      simp only [names, List.map_append, List.map_cons] at hd ⊢
      exact fun hm => List.disjoint_of_nodup_append hd hm List.mem_cons_self
    have hrest := hvs s env hb (acc ++ [(name, v)]) (by simpa using hd)
    simp [Entry.evalList, hv s env hb, put_of_notMem hn, hrest, bind, Except.bind]

theorem Term.eval_itemsOfValues? : ∀ {items : List Value}, (∀ v ∈ items, v.isData builtins) →
    ∃ terms, Term.itemsOfValues? items = some terms ∧
      ∀ s env, Environment.Provides builtins env → Item.evalList s env terms = .ok items
  | [], _ => ⟨[], rfl, fun _ _ _ => by simp [Item.evalList]⟩
  | v :: items, h => by
    rw [List.forall_mem_cons] at h
    obtain ⟨e, he, hv⟩ := Term.eval_ofValue? h.1
    obtain ⟨terms, hes, hvs⟩ := Term.eval_itemsOfValues? h.2
    refine ⟨.item e :: terms, by simp [Term.itemsOfValues?, he, hes], fun s env hb => ?_⟩
    simp [Item.evalList, hv s env hb, hvs s env hb, bind, Except.bind, pure, Except.pure]

end

end Denotation

namespace Lambda

def bodyEnvironment (f : Lambda) (env : Environment) (args : List Value) : Environment :=
  Environment.bindAll
    ((argumentsName, .array args) :: (f.name.toList.map fun name => (name, .closure f env)) ++ env)
    (f.paramNames.zip args)

lemma invoke_eq (s : Setting) (f : Lambda) (env : Environment) (args : List Value) :
    f.invoke s env args = if args.length = f.arity then do
      Param.check s env f.params args
      f.body.eval s (f.bodyEnvironment env args)
    else fail (.arity (.value (.closure f env)) f.arity args.length) := rfl

end Lambda

end Stagewise
