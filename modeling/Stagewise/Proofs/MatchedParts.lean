import Mathlib.Data.List.Forall2
import Stagewise.Proofs.Patterns

/-! What a pattern names. Every name of a pattern has a place, the path of fields and items that
leads to it. A match binds the names in the order of the pattern, each to the part of the value at
its place. -/

set_option autoImplicit false

namespace Stagewise

open Association

/-- One step into a value: to a field, to an item, or to all items but the first ones. -/
inductive Access where
  | field (name : String)
  | item (index : Nat)
  | rest (count : Nat)
deriving DecidableEq

namespace Access

def read : Access → Value → Option Value
  | .field name, .object entries => find? name entries
  | .item index, .array items => items[index]?
  | .rest count, .array items =>
    if count ≤ items.length then some (.array (items.drop count)) else none
  | _, _ => none

def before (step : Access) (place : String × List Access) : String × List Access :=
  (place.1, step :: place.2)

end Access

def Value.at? : List Access → Value → Option Value
  | [], v => some v
  | step :: path, v => (step.read v).bind (Value.at? path)

namespace Pattern

mutual

def places : Pattern → List (String × List Access)
  | .wildcard | .literal _ => []
  | .binding name => [(name, [])]
  | .object fields => fieldPlaces fields
  | .array ps rest => itemPlaces 0 ps ++ rest.toList.map fun name => (name, [.rest ps.length])
  | .type _ inner => inner.places
termination_by structural p => p

def fieldPlaces : List (String × Pattern) → List (String × List Access)
  | [] => []
  | (name, p) :: fields => p.places.map (Access.field name).before ++ fieldPlaces fields
termination_by structural fields => fields

def itemPlaces (start : Nat) : List Pattern → List (String × List Access)
  | [] => []
  | p :: ps => p.places.map (Access.item start).before ++ itemPlaces (start + 1) ps
termination_by structural ps => ps

end

mutual

theorem names_places : ∀ p : Pattern, p.places.map Prod.fst = p.names
  | .wildcard | .literal _ | .binding _ => rfl
  | .object fields => names_fieldPlaces fields
  | .array ps rest => by
    rw [places, names, List.map_append, names_itemPlaces 0 ps]
    cases rest <;> rfl
  | .type _ inner => names_places inner

theorem names_fieldPlaces : ∀ fields : List (String × Pattern),
    (fieldPlaces fields).map Prod.fst = fieldNames fields
  | [] => rfl
  | (name, p) :: fields => by
    rw [fieldPlaces, fieldNames, List.map_append, List.map_map, names_fieldPlaces fields,
      ← names_places p]
    rfl

theorem names_itemPlaces : ∀ (start : Nat) (ps : List Pattern),
    (itemPlaces start ps).map Prod.fst = itemNames ps
  | _, [] => rfl
  | start, p :: ps => by
    rw [itemPlaces, itemNames, List.map_append, List.map_map, names_itemPlaces (start + 1) ps,
      ← names_places p]
    rfl

end

def Binds (v : Value) (binding : String × Value) (place : String × List Access) : Prop :=
  binding.1 = place.1 ∧ v.at? place.2 = some binding.2

lemma binds_before {v w : Value} {step : Access} (hw : step.read v = some w) {bs : Bindings}
    {ps : List (String × List Access)} (h : List.Forall₂ (Binds w) bs ps) :
    List.Forall₂ (Binds v) bs (ps.map step.before) := by
  rw [List.forall₂_map_right_iff]
  refine h.imp fun b place hb => ⟨hb.1, ?_⟩
  rw [Access.before, Value.at?, hw]
  exact hb.2

lemma binds_restBindings {items : List Value} {count : Nat} (hc : count ≤ items.length)
    (rest : Option String) : List.Forall₂ (Binds (.array items)) (restBindings count rest items)
      (rest.toList.map fun name => (name, [.rest count])) := by
  cases rest with
  | none => exact .nil
  | some name => exact .cons ⟨rfl, by simp [Value.at?, Access.read, hc]⟩ .nil

section Match

variable {types : Term → Outcome Constraint}

lemma eq_append_of_match {first second : Outcome (Option Bindings)} {bs : Bindings}
    (h : (do
      match ← first with
      | none => return none
      | some bindings =>
        match ← second with
        | none => return none
        | some more => return some (bindings ++ more)) = .ok (some bs)) :
    ∃ bindings more, first = .ok (some bindings) ∧ second = .ok (some more) ∧
      bs = bindings ++ more := by
  obtain ⟨found, hfirst, h⟩ := Outcome.bind_eq_ok.mp h
  cases found with
  | none => cases h
  | some bindings =>
    obtain ⟨found, hsecond, h⟩ := Outcome.bind_eq_ok.mp h
    cases found with
    | none => cases h
    | some more => exact ⟨bindings, more, hfirst, hsecond, by cases h; rfl⟩

mutual

theorem binds_of_matchWith : ∀ {p : Pattern} {v : Value} {bs : Bindings},
    p.matchWith types v = .ok (some bs) → List.Forall₂ (Binds v) bs p.places
  | .wildcard, _, _, h => by
    cases h
    exact .nil
  | .binding _, _, _, h => by
    cases h
    exact .cons ⟨rfl, rfl⟩ .nil
  | .literal l, v, _, h => by
    rw [matchWith] at h
    split_ifs at h
    · cases h
      exact .nil
    · cases h
  | .object fields, v, _, h => by
    cases v with
    | object entries => exact binds_of_matchFields fields h
    | _ => cases h
  | .array ps rest, v, _, h => by
    cases v with
    | array items =>
      rw [matchWith] at h
      split_ifs at h with hfits
      · have hle := length_le_of_fits hfits
        obtain ⟨found, hitems, h⟩ := Outcome.bind_eq_ok.mp h
        cases found with
        | none => cases h
        | some bindings =>
          cases h
          exact List.rel_append
            (binds_of_matchItems ps (fun i => by rw [Nat.zero_add]) hle hitems)
            (binds_restBindings hle rest)
      · cases h
    | _ => cases h
  | .type ty inner, v, _, h => by
    obtain ⟨c, _, h⟩ := Outcome.bind_eq_ok.mp h
    split_ifs at h
    · exact binds_of_matchWith (p := inner) h
    · cases h

theorem binds_of_matchFields : ∀ (fields : List (String × Pattern))
    {entries : List (String × Value)} {bs : Bindings},
    matchFields types fields entries = .ok (some bs) →
      List.Forall₂ (Binds (.object entries)) bs (fieldPlaces fields)
  | [], _, _, h => by
    cases h
    exact .nil
  | (name, p) :: fields, entries, _, h => by
    rw [matchFields] at h
    cases hfind : find? name entries with
    | none => simp [hfind] at h
    | some w =>
      rw [hfind] at h
      obtain ⟨bindings, more, hp, hrest, rfl⟩ := eq_append_of_match h
      have hread : (Access.field name).read (.object entries) = some w := hfind
      exact List.rel_append (binds_before hread (binds_of_matchWith (p := p) hp))
        (binds_of_matchFields fields hrest)

theorem binds_of_matchItems : ∀ (ps : List Pattern) {start : Nat} {items whole : List Value}
    {bs : Bindings}, (∀ i, whole[start + i]? = items[i]?) → ps.length ≤ items.length →
    matchItems types ps items = .ok (some bs) →
      List.Forall₂ (Binds (.array whole)) bs (itemPlaces start ps)
  | [], _, _, _, _, _, _, h => by
    cases h
    exact .nil
  | p :: ps, start, w :: items, whole, _, hwhole, hle, h => by
    rw [matchItems] at h
    obtain ⟨bindings, more, hp, hrest, rfl⟩ := eq_append_of_match h
    have hread : (Access.item start).read (.array whole) = some w := by
      simpa [Access.read] using hwhole 0
    refine List.rel_append (binds_before hread (binds_of_matchWith (p := p) hp))
      (binds_of_matchItems ps (fun i => ?_) (by simpa using hle) hrest)
    simpa [Nat.add_assoc, Nat.add_comm 1] using hwhole (i + 1)

end

lemma names_of_matchWith {p : Pattern} {v : Value} {bs : Bindings}
    (h : p.matchWith types v = .ok (some bs)) : Association.names bs = p.names := by
  have hnames : Association.names bs = p.places.map Prod.fst := by
    rw [Association.names, ← List.forall₂_eq_eq_eq, List.forall₂_map_left_iff,
      List.forall₂_map_right_iff]
    exact (binds_of_matchWith h).imp fun _ _ hb => hb.1
  exact hnames.trans (names_places p)

lemma leftUnique_binds (v : Value) : Relator.LeftUnique (Binds v) := fun _ _ _ h h' =>
  Prod.ext (h.1.trans h'.1.symm) (Option.some.inj (h.2.symm.trans h'.2))

lemma matchWith_unique {types' : Term → Outcome Constraint} {p : Pattern} {v : Value}
    {bs bs' : Bindings} (h : p.matchWith types v = .ok (some bs))
    (h' : p.matchWith types' v = .ok (some bs')) : bs' = bs :=
  List.left_unique_forall₂' (leftUnique_binds v) (binds_of_matchWith h') (binds_of_matchWith h)

end Match

/-- A match binds the names of the pattern in their order, each one to the part of the value at its
place in the pattern: at the path of fields and items that leads there, or, for the rest of an
array, to the items after those that the pattern tells apart. -/
theorem match_binds_places {types : Term → Outcome Constraint} {p : Pattern} {v : Value}
    {bs : Bindings} (h : p.matchWith types v = .ok (some bs)) :
    bs.map Prod.fst = p.names ∧ p.places.map Prod.fst = p.names ∧
      List.Forall₂ (fun binding place => v.at? place.2 = some binding.2) bs p.places := by
  exact ⟨names_of_matchWith h, names_places p, (binds_of_matchWith h).imp fun _ _ hb => hb.2⟩

theorem match_binds_places_nested :
    let p : Pattern := .object [("pair", .array [.binding "head", .wildcard] (some "tail")),
      ("kind", .type (.of (.value (.type (.kind .string)))) (.binding "kind"))]
    let v : Value := .object [("kind", .string "list"),
      ("pair", .array [.null, .bool true, .bool false])]
    let types : Term → Outcome Constraint := fun _ => .ok (.kind .string)
    let bs : Bindings := [("head", .null), ("tail", .array [.bool false]), ("kind", .string "list")]
    p.matchWith types v = .ok (some bs) ∧ bs.map Prod.fst = p.names ∧
      List.Forall₂ (fun binding place => v.at? place.2 = some binding.2) bs p.places := by
  intro p v types bs
  have hmatch : p.matchWith types v = .ok (some bs) := by rfl
  have hplaces := match_binds_places hmatch
  exact ⟨hmatch, hplaces.1, hplaces.2.2⟩

end Pattern

end Stagewise
