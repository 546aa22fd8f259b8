import Stagewise.Proofs.Scoped
import Stagewise.Proofs.Step
import Stagewise.Staging.Binding

/-! What a staged value denotes: the value that its parts and residual programs have at runtime, at
a place where the residual program has bound some names. -/

set_option autoImplicit false

namespace Stagewise

/-! ### Frames -/

structure Frame where
  binding : Binding
  value : Value
  isCompound : Bool

/-- What the residual program is run with: the values of the runtime inputs, and the names that it
does not bind. -/
structure World where
  setting : Setting
  inputs : Environment
  reserved : List String
  outer : List (String × Nat) := []
  definitions : List (Nat × Definitions) := []

namespace Frame

def name (f : Frame) : String := f.binding.name

def Reaches (Γ : List Frame) (w : Value) (Δ : List Frame) : Option Binding → Prop
  | none => Δ = Γ
  | some b => ⟨b, w, true⟩ :: Δ <:+ Γ

lemma Reaches.suffix {Γ Δ : List Frame} {w : Value} {binding : Option Binding}
    (h : Reaches Γ w Δ binding) : Δ <:+ Γ := by
  cases binding with
  | none => exact h ▸ List.suffix_rfl
  | some b => exact (List.suffix_cons _ _).trans h

end Frame

namespace World

variable (W : World)

def names (Γ : List Frame) : List String := Γ.map Frame.name ++ W.reserved

def env (Γ : List Frame) : Environment := Γ.map (fun f => (f.name, f.value)) ++ W.inputs

def residual (Γ : List Frame) : List (String × Nat) :=
  Γ.map (fun f => (f.binding.name, f.binding.id)) ++ W.outer

def Fresh : List Frame → Prop
  | [] => True
  | f :: Γ => f.name ∉ W.names Γ ∧ Fresh Γ

variable {W} {Γ Δ : List Frame}

lemma Fresh.suffix (h : W.Fresh Γ) (hsuf : Δ <:+ Γ) : W.Fresh Δ := by
  induction Γ with
  | nil => exact (List.suffix_nil.mp hsuf) ▸ h
  | cons f Γ ih =>
    rcases List.suffix_cons_iff.mp hsuf with rfl | hsuf
    · exact h
    · exact ih h.2 hsuf

lemma names_suffix (hsuf : Δ <:+ Γ) : W.names Δ <:+ W.names Γ := by
  obtain ⟨front, rfl⟩ := hsuf
  exact ⟨front.map Frame.name, by simp [names]⟩

lemma Fresh.agreeOn (h : W.Fresh Γ) (hsuf : Δ <:+ Γ) :
    Environment.AgreeOn (W.names Δ) (W.env Γ) (W.env Δ) := by
  induction Γ with
  | nil => exact (List.suffix_nil.mp hsuf) ▸ fun _ _ => rfl
  | cons f Γ ih =>
    rcases List.suffix_cons_iff.mp hsuf with rfl | hsuf
    · exact fun _ _ => rfl
    · have hname : f.name ∉ W.names Δ := fun hn => h.1 ((names_suffix hsuf).subset hn)
      exact (Environment.AgreeOn.skip hname f.value).trans (ih h.2 hsuf)

lemma Fresh.find? {f : Frame} (h : W.Fresh Γ) (hsuf : f :: Δ <:+ Γ) :
    Association.find? f.name (W.residual Γ) = some f.binding.id ∧
      Association.find? f.name (W.env Γ) = some f.value := by
  induction Γ with
  | nil => simp at hsuf
  | cons g Γ ih =>
    rcases List.suffix_cons_iff.mp hsuf with heq | hsuf
    · obtain ⟨rfl, rfl⟩ := List.cons.inj heq
      simp [residual, Frame.name, env, Association.find?]
    · have hmem : f.name ∈ W.names Γ := (names_suffix hsuf).subset (by simp [names])
      have hne : g.name ≠ f.name := fun heq => h.1 (heq ▸ hmem)
      obtain ⟨hid, hvalue⟩ := ih h.2 hsuf
      have hne' : g.binding.name ≠ f.name := hne
      constructor
      · simpa [residual, Association.find?, hne'] using hid
      · simpa [env, Association.find?, hne] using hvalue

end World

/-! ### Staged values -/

def Term.Denotes (W : World) (Γ : List Frame) (e : Term) (w : Value) : Prop :=
  e.Scoped (W.names Γ) ∧ e.eval W.setting (W.env Γ) = .ok w

mutual

/-- The value of a staged value. The parts of an array or object that has a name are older than
the name. -/
def Staged.Denotes (W : World) (Γ : List Frame) : Staged → Value → Prop
  | .now v _ binding, w =>
    v = w ∧ v.isData (fun _ => false) ∧ ∃ Δ, Frame.Reaches Γ w Δ binding
  | .later _ residual, w => residual.Denotes W Γ w ∧ w.isData (fun _ => false)
  | .array items binding, w => ∃ ws Δ, w = .array ws ∧ Frame.Reaches Γ w Δ binding ∧
      Staged.DenoteAll W Δ items ws
  | .object fields binding, w => ∃ ws Δ, w = .object ws ∧ Frame.Reaches Γ w Δ binding ∧
      (Association.names ws).Nodup ∧ Staged.DenoteFields W Δ fields ws
  | .closure _, _ => False
termination_by structural v => v

def Staged.DenoteAll (W : World) (Γ : List Frame) : List Staged → List Value → Prop
  | [], ws => ws = []
  | v :: items, ws => ∃ w ws', ws = w :: ws' ∧ v.Denotes W Γ w ∧ Staged.DenoteAll W Γ items ws'
termination_by structural items => items

def Staged.DenoteFields (W : World) (Γ : List Frame) :
    List (String × Staged) → List (String × Value) → Prop
  | [], ws => ws = []
  | (name, v) :: fields, ws => ∃ w ws', ws = (name, w) :: ws' ∧ v.Denotes W Γ w ∧
      Staged.DenoteFields W Γ fields ws'
termination_by structural fields => fields

end

section Scopes

variable {W : World} {Γ Δ : List Frame} {w : Value}

mutual

theorem Staged.Denotes.isData : ∀ {v : Staged} {w Γ}, v.Denotes W Γ w → w.isData (fun _ => false)
  | .now _ _ _, _, _, ⟨hv, hd, _⟩ => hv ▸ hd
  | .later _ _, _, _, h => h.2
  | .array _ _, _, _, ⟨ws, Δ, hw, _, h⟩ => by
    subst hw
    exact Value.isData_array.mpr (Staged.DenoteAll.isData h)
  | .object _ _, _, _, ⟨ws, Δ, hw, _, hnodup, h⟩ => by
    subst hw
    exact Value.isData_object.mpr ⟨hnodup, Staged.DenoteFields.isData h⟩
  | .closure _, _, _, h => h.elim

theorem Staged.DenoteAll.isData : ∀ {items : List Staged} {ws Γ}, Staged.DenoteAll W Γ items ws →
    ∀ w ∈ ws, w.isData (fun _ => false)
  | [], _, _, h => by simp [show _ = [] from h]
  | _ :: _, _, _, ⟨w, ws, hw, hv, h⟩ => by
    subst hw
    exact List.forall_mem_cons.mpr ⟨Staged.Denotes.isData hv, Staged.DenoteAll.isData h⟩

theorem Staged.DenoteFields.isData : ∀ {fields : List (String × Staged)} {ws Γ},
    Staged.DenoteFields W Γ fields ws → ∀ p ∈ ws, p.2.isData (fun _ => false)
  | [], _, _, h => by simp [show _ = [] from h]
  | (_, _) :: _, _, _, ⟨w, ws, hw, hv, h⟩ => by
    subst hw
    exact List.forall_mem_cons.mpr ⟨Staged.Denotes.isData hv, Staged.DenoteFields.isData h⟩

end

lemma Term.Denotes.weaken {e : Term} (h : e.Denotes W Δ w) (hfresh : W.Fresh Γ) (hsuf : Δ <:+ Γ) :
    e.Denotes W Γ w :=
  ⟨h.1.mono (World.names_suffix hsuf), h.1.eval_congr (hfresh.agreeOn hsuf).symm h.2⟩

lemma Term.Denotes.drop {f : Frame} {e : Term} (h : e.Denotes W (f :: Γ) w)
    (hfresh : W.Fresh (f :: Γ)) (hm : e.mentions f.name = false) : e.Denotes W Γ w := by
  have hscoped : e.Scoped (W.names Γ) := h.1.of_not_mentions hfresh.1 hm
  exact ⟨hscoped, hscoped.eval_congr (.skip hfresh.1 f.value) h.2⟩

mutual

theorem Staged.Denotes.weaken : ∀ {v : Staged} {w Γ Δ}, v.Denotes W Δ w → W.Fresh Γ → Δ <:+ Γ →
    v.Denotes W Γ w
  | .now v c none, w, Γ, Δ, h, _, _ => ⟨h.1, h.2.1, Γ, rfl⟩
  | .now v c (some b), w, Γ, Δ, ⟨hv, hd, Ε, hreach⟩, _, hsuf => ⟨hv, hd, Ε, hreach.trans hsuf⟩
  | .later c e, w, Γ, Δ, h, hfresh, hsuf => ⟨Term.Denotes.weaken h.1 hfresh hsuf, h.2⟩
  | .array items none, w, Γ, Δ, ⟨ws, Ε, hw, hreach, h⟩, hfresh, hsuf => by
    obtain rfl : Ε = Δ := hreach
    exact ⟨ws, Γ, hw, rfl, Staged.DenoteAll.weaken h hfresh hsuf⟩
  | .array items (some b), w, Γ, Δ, ⟨ws, Ε, hw, hreach, h⟩, _, hsuf
  | .object fields (some b), w, Γ, Δ, ⟨ws, Ε, hw, hreach, h⟩, _, hsuf =>
    ⟨ws, Ε, hw, hreach.trans hsuf, h⟩
  | .object fields none, w, Γ, Δ, ⟨ws, Ε, hw, hreach, hnodup, h⟩, hfresh, hsuf => by
    obtain rfl : Ε = Δ := hreach
    exact ⟨ws, Γ, hw, rfl, hnodup, Staged.DenoteFields.weaken h hfresh hsuf⟩
  | .closure _, _, _, _, h, _, _ => h.elim

theorem Staged.DenoteAll.weaken : ∀ {items : List Staged} {ws Γ Δ}, Staged.DenoteAll W Δ items ws →
    W.Fresh Γ → Δ <:+ Γ → Staged.DenoteAll W Γ items ws
  | [], _, _, _, h, _, _ => h
  | _ :: _, _, _, _, ⟨w, ws, hw, hv, h⟩, hfresh, hsuf =>
    ⟨w, ws, hw, Staged.Denotes.weaken hv hfresh hsuf, Staged.DenoteAll.weaken h hfresh hsuf⟩

theorem Staged.DenoteFields.weaken : ∀ {fields : List (String × Staged)} {ws Γ Δ},
    Staged.DenoteFields W Δ fields ws → W.Fresh Γ → Δ <:+ Γ → Staged.DenoteFields W Γ fields ws
  | [], _, _, _, h, _, _ => h
  | (_, _) :: _, _, _, _, ⟨w, ws, hw, hv, h⟩, hfresh, hsuf =>
    ⟨w, ws, hw, Staged.Denotes.weaken hv hfresh hsuf, Staged.DenoteFields.weaken h hfresh hsuf⟩

end

lemma Frame.Reaches.clear {binding : Option Binding} (h : Frame.Reaches Γ w Δ binding) (id : Nat) :
    ∃ Ε, Δ <:+ Ε ∧ Ε <:+ Γ ∧ Frame.Reaches Γ w Ε (binding.filter fun b => b.id ≠ id) := by
  cases binding with
  | none => exact ⟨Γ, h.suffix, List.suffix_rfl, rfl⟩
  | some b =>
    by_cases hid : b.id = id
    · exact ⟨Γ, h.suffix, List.suffix_rfl, by simp [Option.filter_some, hid, Frame.Reaches]⟩
    · exact ⟨Δ, List.suffix_rfl, h.suffix, by simpa [Option.filter_some, hid] using h⟩

mutual

theorem Staged.Denotes.clear (id : Nat) : ∀ {v : Staged} {w Γ}, v.Denotes W Γ w → W.Fresh Γ →
    (v.clearBinding id).Denotes W Γ w
  | .now v c binding, w, Γ, ⟨hv, hd, Δ, hreach⟩, _ => by
    obtain ⟨Ε, _, _, hreach⟩ := hreach.clear id
    exact ⟨hv, hd, Ε, hreach⟩
  | .later c e, _, _, h, _ => h
  | .array items binding, w, Γ, ⟨ws, Δ, hw, hreach, h⟩, hfresh => by
    obtain ⟨Ε, hin, hout, hreach⟩ := hreach.clear id
    have hfresh := hfresh.suffix hout
    exact ⟨ws, Ε, hw, hreach, (Staged.DenoteAll.clear id h (hfresh.suffix hin)).weaken hfresh hin⟩
  | .object fields binding, w, Γ, ⟨ws, Δ, hw, hreach, hnodup, h⟩, hfresh => by
    obtain ⟨Ε, hin, hout, hreach⟩ := hreach.clear id
    have hfresh := hfresh.suffix hout
    exact ⟨ws, Ε, hw, hreach, hnodup,
      (Staged.DenoteFields.clear id h (hfresh.suffix hin)).weaken hfresh hin⟩
  | .closure _, _, _, h, _ => h.elim

theorem Staged.DenoteAll.clear (id : Nat) : ∀ {items : List Staged} {ws Γ},
    Staged.DenoteAll W Γ items ws → W.Fresh Γ → Staged.DenoteAll W Γ (Staged.clearItems id items) ws
  | [], _, _, h, _ => h
  | _ :: _, _, _, ⟨w, ws, hw, hv, h⟩, hfresh =>
    ⟨w, ws, hw, Staged.Denotes.clear id hv hfresh, Staged.DenoteAll.clear id h hfresh⟩

theorem Staged.DenoteFields.clear (id : Nat) : ∀ {fields : List (String × Staged)} {ws Γ},
    Staged.DenoteFields W Γ fields ws → W.Fresh Γ →
    Staged.DenoteFields W Γ (Staged.clearFields id fields) ws
  | [], _, _, h, _ => h
  | (_, _) :: _, _, _, ⟨w, ws, hw, hv, h⟩, hfresh =>
    ⟨w, ws, hw, Staged.Denotes.clear id hv hfresh, Staged.DenoteFields.clear id h hfresh⟩

end

end Scopes

/-! ### Leaving the scope of a name -/

mutual

def Staged.avoids (n : String) : Staged → Bool
  | .later _ e => !e.mentions n
  | .array items none => Staged.avoidAll n items
  | .object fields none => Staged.avoidFields n fields
  | .now _ _ _ | .array _ (some _) | .object _ (some _) | .closure _ => true
termination_by structural v => v

def Staged.avoidAll (n : String) : List Staged → Bool
  | [] => true
  | v :: items => v.avoids n && Staged.avoidAll n items
termination_by structural items => items

def Staged.avoidFields (n : String) : List (String × Staged) → Bool
  | [] => true
  | (_, v) :: fields => v.avoids n && Staged.avoidFields n fields
termination_by structural fields => fields

end

mutual

theorem Staged.avoids_of_not_hasLater {n : String} : ∀ {v : Staged}, v.hasLater = false → v.avoids n
  | .now _ _ _, _ => rfl
  | .later _ _, h => by cases h
  | .array _ none, h => Staged.avoidAll_of_not_hasLater h
  | .array _ (some _), _ => rfl
  | .object _ none, h => Staged.avoidFields_of_not_hasLater h
  | .object _ (some _), _ => rfl
  | .closure _, _ => rfl

theorem Staged.avoidAll_of_not_hasLater {n : String} : ∀ {items : List Staged},
    Staged.hasLaterItem items = false → Staged.avoidAll n items
  | [], _ => rfl
  | v :: items, h => by
    rw [Staged.hasLaterItem, Bool.or_eq_false_iff] at h
    rw [Staged.avoidAll, Staged.avoids_of_not_hasLater h.1, Staged.avoidAll_of_not_hasLater h.2]
    rfl

theorem Staged.avoidFields_of_not_hasLater {n : String} : ∀ {fields : List (String × Staged)},
    Staged.hasLaterField fields = false → Staged.avoidFields n fields
  | [], _ => rfl
  | (_, v) :: fields, h => by
    rw [Staged.hasLaterField, Bool.or_eq_false_iff] at h
    rw [Staged.avoidFields, Staged.avoids_of_not_hasLater h.1,
      Staged.avoidFields_of_not_hasLater h.2]
    rfl

end

section Leaving

variable {W : World} {Γ : List Frame} {w : Value} {f : Frame}

lemma Frame.Reaches.drop {Δ : List Frame} {b : Binding} (h : Frame.Reaches (f :: Γ) w Δ (some b)) :
    Δ <:+ Γ ∧ (f = ⟨b, w, true⟩ ∨ Frame.Reaches Γ w Δ (some b)) := by
  rcases List.suffix_cons_iff.mp h with heq | hsuf
  · obtain ⟨rfl, rfl⟩ := List.cons.inj heq
    exact ⟨List.suffix_rfl, Or.inl rfl⟩
  · exact ⟨(List.suffix_cons _ _).trans hsuf, Or.inr hsuf⟩

lemma Frame.Reaches.dropLater {Δ : List Frame} {b : Binding} (hf : f.isCompound = false)
    (h : Frame.Reaches (f :: Γ) w Δ (some b)) : Frame.Reaches Γ w Δ (some b) := by
  rcases h.drop.2 with rfl | h
  · cases hf
  · exact h

mutual

theorem Staged.Denotes.dropLater (hf : f.isCompound = false) : ∀ {v : Staged} {w},
    v.Denotes W (f :: Γ) w → W.Fresh (f :: Γ) → v.avoids f.name → v.Denotes W Γ w
  | .now v c none, w, ⟨hv, hd, _⟩, _, _ => ⟨hv, hd, Γ, rfl⟩
  | .now v c (some b), w, ⟨hv, hd, Δ, hreach⟩, _, _ => ⟨hv, hd, Δ, hreach.dropLater hf⟩
  | .later c e, w, h, hfresh, ha =>
    ⟨Term.Denotes.drop h.1 hfresh (by simpa [Staged.avoids] using ha), h.2⟩
  | .array items none, w, ⟨ws, Δ, hw, hreach, h⟩, hfresh, ha => by
    obtain rfl : Δ = f :: Γ := hreach
    exact ⟨ws, Γ, hw, rfl, Staged.DenoteAll.dropLater hf h hfresh ha⟩
  | .array items (some b), w, ⟨ws, Δ, hw, hreach, h⟩, _, _
  | .object fields (some b), w, ⟨ws, Δ, hw, hreach, h⟩, _, _ =>
    ⟨ws, Δ, hw, hreach.dropLater hf, h⟩
  | .object fields none, w, ⟨ws, Δ, hw, hreach, hnodup, h⟩, hfresh, ha => by
    obtain rfl : Δ = f :: Γ := hreach
    exact ⟨ws, Γ, hw, rfl, hnodup, Staged.DenoteFields.dropLater hf h hfresh ha⟩
  | .closure _, _, h, _, _ => h.elim

theorem Staged.DenoteAll.dropLater (hf : f.isCompound = false) : ∀ {items : List Staged} {ws},
    Staged.DenoteAll W (f :: Γ) items ws → W.Fresh (f :: Γ) → Staged.avoidAll f.name items →
    Staged.DenoteAll W Γ items ws
  | [], _, h, _, _ => h
  | _ :: _, _, ⟨w, ws, hw, hv, h⟩, hfresh, ha => by
    rw [Staged.avoidAll, Bool.and_eq_true] at ha
    exact ⟨w, ws, hw, Staged.Denotes.dropLater hf hv hfresh ha.1,
      Staged.DenoteAll.dropLater hf h hfresh ha.2⟩

theorem Staged.DenoteFields.dropLater (hf : f.isCompound = false) :
    ∀ {fields : List (String × Staged)} {ws}, Staged.DenoteFields W (f :: Γ) fields ws →
    W.Fresh (f :: Γ) → Staged.avoidFields f.name fields → Staged.DenoteFields W Γ fields ws
  | [], _, h, _, _ => h
  | (_, _) :: _, _, ⟨w, ws, hw, hv, h⟩, hfresh, ha => by
    rw [Staged.avoidFields, Bool.and_eq_true] at ha
    exact ⟨w, ws, hw, Staged.Denotes.dropLater hf hv hfresh ha.1,
      Staged.DenoteFields.dropLater hf h hfresh ha.2⟩

end

lemma Frame.filter_binding (b : Binding) :
    (some b).filter (fun c => c.id ≠ b.id) = none := by
  simp [Option.filter_some]

mutual

theorem Staged.Denotes.drop : ∀ {v : Staged} {w}, v.Denotes W (f :: Γ) w → W.Fresh (f :: Γ) →
    v.avoids f.name → (v.clearBinding f.binding.id).Denotes W Γ w
  | .now v c none, w, ⟨hv, hd, _⟩, _, _ => ⟨hv, hd, Γ, rfl⟩
  | .now v c (some b), w, ⟨hv, hd, Δ, hreach⟩, hfresh, _ => by
    rcases hreach.drop.2 with rfl | hreach
    · refine ⟨hv, hd, Γ, ?_⟩
      rw [Frame.filter_binding b]
      rfl
    · exact Staged.Denotes.clear _ (v := .now v c (some b)) ⟨hv, hd, Δ, hreach⟩ hfresh.2
  | .later c e, w, h, hfresh, ha =>
    ⟨Term.Denotes.drop h.1 hfresh (by simpa [Staged.avoids] using ha), h.2⟩
  | .array items none, w, ⟨ws, Δ, hw, hreach, h⟩, hfresh, ha => by
    obtain rfl : Δ = f :: Γ := hreach
    exact ⟨ws, Γ, hw, rfl, Staged.DenoteAll.drop h hfresh ha⟩
  | .array items (some b), w, ⟨ws, Δ, hw, hreach, h⟩, hfresh, _ => by
    obtain ⟨hsuf, rfl | hreach⟩ := hreach.drop
    · have hitems := (h.clear b.id (hfresh.2.suffix hsuf)).weaken hfresh.2 hsuf
      refine ⟨ws, Γ, hw, ?_, hitems⟩
      rw [Frame.filter_binding b]
      rfl
    · exact Staged.Denotes.clear _ (v := .array items (some b)) ⟨ws, Δ, hw, hreach, h⟩ hfresh.2
  | .object fields none, w, ⟨ws, Δ, hw, hreach, hnodup, h⟩, hfresh, ha => by
    obtain rfl : Δ = f :: Γ := hreach
    exact ⟨ws, Γ, hw, rfl, hnodup, Staged.DenoteFields.drop h hfresh ha⟩
  | .object fields (some b), w, ⟨ws, Δ, hw, hreach, hnodup, h⟩, hfresh, _ => by
    obtain ⟨hsuf, rfl | hreach⟩ := hreach.drop
    · have hfields := (h.clear b.id (hfresh.2.suffix hsuf)).weaken hfresh.2 hsuf
      refine ⟨ws, Γ, hw, ?_, hnodup, hfields⟩
      rw [Frame.filter_binding b]
      rfl
    · exact Staged.Denotes.clear _ (v := .object fields (some b)) ⟨ws, Δ, hw, hreach, hnodup, h⟩
        hfresh.2
  | .closure _, _, h, _, _ => h.elim

theorem Staged.DenoteAll.drop : ∀ {items : List Staged} {ws},
    Staged.DenoteAll W (f :: Γ) items ws → W.Fresh (f :: Γ) → Staged.avoidAll f.name items →
    Staged.DenoteAll W Γ (Staged.clearItems f.binding.id items) ws
  | [], _, h, _, _ => h
  | _ :: _, _, ⟨w, ws, hw, hv, h⟩, hfresh, ha => by
    rw [Staged.avoidAll, Bool.and_eq_true] at ha
    exact ⟨w, ws, hw, Staged.Denotes.drop hv hfresh ha.1, Staged.DenoteAll.drop h hfresh ha.2⟩

theorem Staged.DenoteFields.drop : ∀ {fields : List (String × Staged)} {ws},
    Staged.DenoteFields W (f :: Γ) fields ws → W.Fresh (f :: Γ) →
    Staged.avoidFields f.name fields →
    Staged.DenoteFields W Γ (Staged.clearFields f.binding.id fields) ws
  | [], _, h, _, _ => h
  | (_, _) :: _, _, ⟨w, ws, hw, hv, h⟩, hfresh, ha => by
    rw [Staged.avoidFields, Bool.and_eq_true] at ha
    exact ⟨w, ws, hw, Staged.Denotes.drop hv hfresh ha.1, Staged.DenoteFields.drop h hfresh ha.2⟩

end

end Leaving

/-! ### Residual programs -/

lemma Association.zip_names {α : Type} (fields : List (String × α)) :
    (names fields).zip (fields.map Prod.snd) = fields := by
  induction fields with
  | nil => rfl
  | cons p fields ih => simpa [names] using ih

lemma Association.putAll_append {α : Type} {acc fields : List (String × α)}
    (h : (names (acc ++ fields)).Nodup) : putAll acc fields = acc ++ fields := by
  induction fields generalizing acc with
  | nil => simp [putAll]
  | cons p fields ih =>
    obtain ⟨name, v⟩ := p
    have hname : name ∉ names acc := by
      simp only [names, List.map_append, List.map_cons] at h ⊢
      exact fun hm => List.disjoint_of_nodup_append h hm List.mem_cons_self
    have hput : putAll acc ((name, v) :: fields) = putAll (acc ++ [(name, v)]) fields := by
      rw [← put_of_notMem hname]
      rfl
    rw [hput, ih (by simpa using h)]
    simp

lemma Association.putAll_of_nodup {α : Type} {fields : List (String × α)}
    (h : (names fields).Nodup) : putAll [] fields = fields :=
  @putAll_append _ [] fields h

abbrev Stage.Keeps {α : Type} (W : World) (step : Stage α) (P : α → Prop) : Prop :=
  Stage.Yields (fun s => (s.reserved, s.definitions) = (W.reserved, W.definitions))
    (fun _ => True) step P

open Stage

lemma Stage.Keeps.lift {α : Type} {W : World} (outcome : Outcome α) :
    Keeps W (Stage.lift outcome) fun a => outcome = .ok a :=
  Yields.lift (fun _ h => h) fun _ _ => trivial

mutual

theorem Term.scoped_ofValue? {names : List String} : ∀ {v : Value} {e : Term},
    v.isData (fun _ => false) → Term.ofValue? v = some e → e.Scoped names
  | .number _, e, _, h | .string _, e, _, h | .bool _, e, _, h | .null, e, _, h =>
    Option.some.inj h ▸ .literal
  | .type _, e, _, h => Option.some.inj h ▸ .value
  | .builtin _, e, hd, _ => by cases hd
  | .closure _ _, e, hd, _ => by cases hd
  | .object fields, e, hd, h => by
    obtain ⟨entries, he, rfl⟩ := Option.map_eq_some_iff.mp h
    obtain ⟨es, rfl, hes⟩ := Term.scoped_entriesOfFields? (Value.isData_object.mp hd).2 he
    exact .strict .object hes
  | .array items, e, hd, h => by
    obtain ⟨terms, he, rfl⟩ := Option.map_eq_some_iff.mp h
    obtain ⟨es, rfl, hes⟩ := Term.scoped_itemsOfValues? (Value.isData_array.mp hd) he
    exact .strict .array hes

theorem Term.scoped_entriesOfFields? {names : List String} : ∀ {fields : List (String × Value)}
    {entries : List Entry}, (∀ p ∈ fields, p.2.isData (fun _ => false)) →
    Term.entriesOfFields? fields = some entries →
    ∃ es : List (String × Term), entries = es.map (fun p => .field p.1 p.2) ∧
      ∀ e ∈ es.map Prod.snd, e.Scoped names
  | [], entries, _, h => ⟨[], (Option.some.inj h).symm, by simp⟩
  | (name, v) :: fields, entries, hd, h => by
    rw [List.forall_mem_cons] at hd
    rw [Term.entriesOfFields?] at h
    split at h
    · next e rest he hrest =>
      obtain ⟨es, rfl, hes⟩ := Term.scoped_entriesOfFields? hd.2 hrest
      refine ⟨(name, e) :: es, (Option.some.inj h).symm, ?_⟩
      exact List.forall_mem_cons.mpr ⟨Term.scoped_ofValue? hd.1 he, hes⟩
    · cases h

theorem Term.scoped_itemsOfValues? {names : List String} : ∀ {items : List Value}
    {terms : List Item}, (∀ v ∈ items, v.isData (fun _ => false)) →
    Term.itemsOfValues? items = some terms →
    ∃ es : List Term, terms = es.map .item ∧ ∀ e ∈ es, e.Scoped names
  | [], terms, _, h => ⟨[], (Option.some.inj h).symm, by simp⟩
  | v :: items, terms, hd, h => by
    rw [List.forall_mem_cons] at hd
    rw [Term.itemsOfValues?] at h
    split at h
    · next e rest he hrest =>
      obtain ⟨es, rfl, hes⟩ := Term.scoped_itemsOfValues? hd.2 hrest
      refine ⟨e :: es, (Option.some.inj h).symm, ?_⟩
      exact List.forall_mem_cons.mpr ⟨Term.scoped_ofValue? hd.1 he, hes⟩
    · cases h

end

section Residual

variable {W : World} {Γ : List Frame} {w : Value}

lemma Term.denotes_ofValue? {v : Value} (hd : v.isData (fun _ => false)) :
    ∃ e, Term.ofValue? v = some e ∧ e.Denotes W Γ v := by
  obtain ⟨e, he, hv⟩ := Term.eval_ofValue? hd
  exact ⟨e, he, Term.scoped_ofValue? hd he, hv _ _ fun _ h => by cases h⟩

lemma Term.denotes_var {f : Frame} {Δ : List Frame} (hfresh : W.Fresh Γ) (hsuf : f :: Δ <:+ Γ) :
    (Term.var f.name).Denotes W Γ f.value := by
  refine ⟨.var ((World.names_suffix hsuf).subset (by simp [World.names])), ?_⟩
  refine Term.eval_mk_eq_ok.mpr ?_
  rw [Node.eval, Environment.get, (hfresh.find? hsuf).2]

lemma Staged.byName_denotes {scope : Scope} {Δ : List Frame} {binding : Option Binding}
    {otherwise : Stage Term} {P : Term → Prop} (hres : scope.residual = W.residual Γ)
    (hfresh : W.Fresh Γ) (hreach : Frame.Reaches Γ w Δ binding)
    (hname : ∀ b, binding = some b → P (.var b.name))
    (hplain : binding = none → Keeps W otherwise P) :
    Keeps W (byName scope binding otherwise) P := by
  cases binding with
  | none => exact hplain rfl
  | some b =>
    have hvisible : scope.isVisible b := by
      rw [Scope.isVisible, hres]
      exact beq_iff_eq.mpr (hfresh.find? hreach).1
    rw [byName, if_pos hvisible]
    exact .pure (hname b rfl)

mutual

theorem Staged.residualize_denotes (ctx : Context) {scope : Scope}
    (hres : scope.residual = W.residual Γ) (hfresh : W.Fresh Γ) : ∀ {v : Staged} {w},
    v.Denotes W Γ w → Keeps W (v.residualize ctx scope) fun e =>
      e.Denotes W Γ w ∧ ∀ n, e.mentions n = false → v.avoids n
  | .now v c binding, w, ⟨hv, hd, Δ, hreach⟩ => by
    subst hv
    rw [Staged.residualize]
    refine Staged.byName_denotes hres hfresh hreach ?_ fun _ => ?_
    · rintro b rfl
      exact ⟨Term.denotes_var hfresh hreach, fun _ _ => rfl⟩
    · obtain ⟨e, he, hdenotes⟩ := Term.denotes_ofValue? (W := W) (Γ := Γ) hd
      rw [he]
      exact .pure ⟨hdenotes, fun _ _ => rfl⟩
  | .later c e, w, h => .pure ⟨h.1, fun n hn => by simp [Staged.avoids, hn]⟩
  | .array items binding, w, ⟨ws, Δ, hw, hreach, h⟩ => by
    rw [Staged.residualize]
    refine Staged.byName_denotes hres hfresh hreach ?_ ?_
    · rintro b rfl
      exact ⟨Term.denotes_var hfresh hreach, fun _ _ => rfl⟩
    · rintro rfl
      obtain rfl : Γ = Δ := hreach.symm
      refine (Staged.residualizeItems_denotes ctx hres hfresh h).bind fun items' hitems => ?_
      obtain ⟨es, rfl, hscoped, hes, havoid⟩ := hitems
      refine .pure ⟨⟨.strict .array hscoped, ?_⟩, fun n hn => ?_⟩
      · exact Term.eval_mk_eq_ok.mpr (Node.Strict.array.eval_eq_ok.mpr ⟨ws, hes, hw⟩)
      · exact havoid n (Node.Strict.array.not_mentions.mp hn)
  | .object fields binding, w, ⟨ws, Δ, hw, hreach, hnodup, h⟩ => by
    rw [Staged.residualize]
    refine Staged.byName_denotes hres hfresh hreach ?_ ?_
    · rintro b rfl
      exact ⟨Term.denotes_var hfresh hreach, fun _ _ => rfl⟩
    · rintro rfl
      obtain rfl : Γ = Δ := hreach.symm
      refine (Staged.residualizeFields_denotes ctx hres hfresh h).bind fun entries hentries => ?_
      obtain ⟨es, rfl, hscoped, hnames, hes, havoid⟩ := hentries
      refine .pure ⟨⟨.strict .object hscoped, ?_⟩, fun n hn => ?_⟩
      · refine Term.eval_mk_eq_ok.mpr (Node.Strict.object.eval_eq_ok.mpr ⟨_, hes, ?_⟩)
        rw [hnames, Association.zip_names, Association.putAll_of_nodup hnodup, hw]
      · exact havoid n (Node.Strict.object.not_mentions.mp hn)
  | .closure _, _, h => h.elim

theorem Staged.residualizeItems_denotes (ctx : Context) {scope : Scope}
    (hres : scope.residual = W.residual Γ) (hfresh : W.Fresh Γ) : ∀ {items : List Staged} {ws},
    Staged.DenoteAll W Γ items ws → Keeps W (Staged.residualizeItems ctx scope items) fun items' =>
      ∃ es : List Term, items' = es.map .item ∧ (∀ e ∈ es, e.Scoped (W.names Γ)) ∧
        Term.evalList W.setting (W.env Γ) es = .ok ws ∧
        ∀ n, (∀ e ∈ es, e.mentions n = false) → Staged.avoidAll n items
  | [], _, h => .pure ⟨[], rfl, by simp, Term.evalList_nil.mpr h, fun _ _ => rfl⟩
  | _ :: _, _, ⟨w, ws, hw, hv, h⟩ => by
    rw [Staged.residualizeItems]
    refine (Staged.residualize_denotes ctx hres hfresh hv).bind fun e he => ?_
    refine (Staged.residualizeItems_denotes ctx hres hfresh h).bind fun items' hitems => ?_
    obtain ⟨es, rfl, hscoped, hes, havoid⟩ := hitems
    refine .pure ⟨e :: es, rfl, List.forall_mem_cons.mpr ⟨he.1.1, hscoped⟩, ?_, fun n hn => ?_⟩
    · exact Term.evalList_cons.mpr ⟨w, ws, he.1.2, hes, hw⟩
    · rw [List.forall_mem_cons] at hn
      rw [Staged.avoidAll, he.2 n hn.1, havoid n hn.2]
      rfl

theorem Staged.residualizeFields_denotes (ctx : Context) {scope : Scope}
    (hres : scope.residual = W.residual Γ) (hfresh : W.Fresh Γ) :
    ∀ {fields : List (String × Staged)} {ws},
    Staged.DenoteFields W Γ fields ws → Keeps W (Staged.residualizeFields ctx scope fields)
      fun entries => ∃ es : List (String × Term), entries = es.map (fun p => .field p.1 p.2) ∧
        (∀ e ∈ es.map Prod.snd, e.Scoped (W.names Γ)) ∧
        es.map Prod.fst = Association.names ws ∧
        Term.evalList W.setting (W.env Γ) (es.map Prod.snd) = .ok (ws.map Prod.snd) ∧
        ∀ n, (∀ e ∈ es.map Prod.snd, e.mentions n = false) → Staged.avoidFields n fields
  | [], _, h => by
    subst h
    exact .pure ⟨[], rfl, by simp, rfl, Term.evalList_nil.mpr rfl, fun _ _ => rfl⟩
  | (name, _) :: _, _, ⟨w, ws, hw, hv, h⟩ => by
    subst hw
    rw [Staged.residualizeFields]
    refine (Staged.residualize_denotes ctx hres hfresh hv).bind fun e he => ?_
    refine (Staged.residualizeFields_denotes ctx hres hfresh h).bind fun entries hentries => ?_
    obtain ⟨es, rfl, hscoped, hnames, hes, havoid⟩ := hentries
    refine .pure ⟨(name, e) :: es, rfl, List.forall_mem_cons.mpr ⟨he.1.1, hscoped⟩, ?_, ?_,
      fun n hn => ?_⟩
    · simp [hnames, Association.names]
    · exact Term.evalList_cons.mpr ⟨w, _, he.1.2, hes, rfl⟩
    · rw [List.map_cons, List.forall_mem_cons] at hn
      rw [Staged.avoidFields, he.2 n hn.1, havoid n hn.2]
      rfl

end

end Residual

/-! ### Bindings -/

structure Scope.Denotes (W : World) (Γ : List Frame) (scope : Scope) (env : Environment) :
    Prop where
  fresh : W.Fresh Γ
  residual : scope.residual = W.residual Γ
  refinements : scope.refinements = []
  values : Staged.DenoteFields W Γ scope.env env

def Pending.Restores (W : World) (Γ Δ : List Frame) (p : Pending) : Prop :=
  ∀ ctx v w, Staged.Denotes W Δ v w → Keeps W (p.finish ctx v) fun r => r.Denotes W Γ w

section Bindings

variable {W : World} {Γ : List Frame} {scope : Scope} {env : Environment} {v result : Staged}
  {u w : Value} {f : Frame} {init : Term}

lemma Scope.Denotes.bind (h : scope.Denotes W Γ env) (hv : v.Denotes W Γ w) (name : String) :
    (scope.bind name v).Denotes W Γ ((name, w) :: env) where
  fresh := h.fresh
  residual := h.residual
  refinements := by
    change scope.refinements.without name = []
    rw [h.refinements]
    rfl
  values := ⟨w, env, rfl, hv, h.values⟩

lemma Scope.Denotes.bindResidual (h : scope.Denotes W Γ env) (hf : f.name ∉ W.names Γ) :
    (scope.bindResidual f.binding).Denotes W (f :: Γ) env where
  fresh := ⟨hf, h.fresh⟩
  residual := congrArg ((f.binding.name, f.binding.id) :: ·) h.residual
  refinements := h.refinements
  values := h.values.weaken ⟨hf, h.fresh⟩ (List.suffix_cons f Γ)

lemma Scope.freshBinding_notMem (hres : scope.residual = W.residual Γ) (base : String) :
    Keeps W (Stage.freshBinding base scope) fun b =>
      b.name ∉ W.names Γ ∧ (base ≠ blankName → b.name ≠ blankName) := by
  refine .bind (P := fun name => name ∉ W.names Γ ∧ (base ≠ blankName → name ≠ blankName)) ?_
    fun name hname => ?_
  · refine .get_bind fun session hs => .pure ⟨fun hmem => ?_, Session.freshName_ne (c := '_')⟩
    refine session.freshName_notMem base scope ?_
    rw [hres, show session.reserved = W.reserved from congrArg Prod.fst hs]
    rcases List.mem_append.mp hmem with hmem | hmem
    · refine List.mem_append_left _ ?_
      rw [World.residual, Association.names, List.map_append, List.map_map]
      exact List.mem_append_left _ hmem
    · exact List.mem_append_right _ hmem
  · exact .bind (P := fun _ => True) (.modifyGet fun s hs => ⟨trivial, hs⟩) fun _ _ => .pure hname

lemma Scope.Denotes.freshBinding (h : scope.Denotes W Γ env) {base : String}
    (hbase : base ≠ blankName) : Keeps W (Stage.freshBinding base scope) fun b =>
      b.name ∉ W.names Γ ∧ b.name ≠ blankName :=
  (Scope.freshBinding_notMem h.residual base).mono fun _ hb => ⟨hb.1, hb.2 hbase⟩

lemma Term.denotes_bind {e : Term} (hinit : init.Denotes W Γ f.value)
    (he : e.Denotes W (f :: Γ) w) (hfresh : W.Fresh (f :: Γ)) :
    (Term.letIn (.binding f.name) init e).Denotes W Γ w :=
  ⟨.bind hinit.1 List.suffix_rfl hfresh.1 he.1,
    Term.eval_mk_eq_ok.mpr (Node.eval_bind.mpr ⟨f.value, hinit.2, he.2⟩)⟩

lemma Term.denotes_skip {e : Term} (hinit : init.Denotes W Γ u) (he : e.Denotes W Γ w) :
    (Term.letIn .wildcard init e).Denotes W Γ w :=
  ⟨.skip hinit.1 he.1, Term.eval_mk_eq_ok.mpr (Node.eval_skip.mpr ⟨u, hinit.2, he.2⟩)⟩

lemma Term.denotes_substitute {e : Term} (hinit : init.Denotes W Γ f.value)
    (he : e.Denotes W (f :: Γ) w) (hfresh : W.Fresh (f :: Γ)) :
    (e.substitute ⟨f.name, init⟩).Denotes W Γ w := by
  refine ⟨he.1.substitute [] hinit.1 hfresh.1 rfl, ?_⟩
  refine he.1.eval_substitute [] hinit.1 hfresh.1 rfl (.skip hfresh.1 f.value) ?_ hinit.2 he.2
  simp [Association.find?]

lemma Pending.finishLater_denotes (ctx : Context) {inner : Scope}
    (hinner : inner.Denotes W (f :: Γ) env) (hf : f.isCompound = false)
    (hname : f.name ≠ blankName) (hinit : init.Denotes W Γ f.value)
    (hresult : result.Denotes W (f :: Γ) w) :
    Keeps W (finishLater ctx inner f.name init result) fun r => r.Denotes W Γ w := by
  unfold finishLater
  by_cases hnow : result.isNow && init.isPure
  · rw [if_pos hnow]
    refine .pure (hresult.dropLater hf hinner.fresh ?_)
    cases result <;> first | rfl | simp [Staged.isNow] at hnow
  · rw [if_neg hnow]
    refine (Staged.residualize_denotes ctx hinner.residual hinner.fresh hresult).bind
      fun e he => ?_
    split_ifs with hmentions
    · exact .pure ⟨Term.denotes_bind hinit he.1 hinner.fresh, hresult.isData⟩
    · have hm : e.mentions f.name = false := by simpa [hname] using hmentions
      exact .pure (hresult.dropLater hf hinner.fresh (he.2 f.name hm))
    · have hm : e.mentions f.name = false := by simpa [hname] using hmentions
      exact .pure ⟨Term.denotes_skip hinit (he.1.drop hinner.fresh hm), hresult.isData⟩

lemma Pending.finishCompound_denotes (ctx : Context) {inner outer : Scope} {b : Binding}
    {env' : Environment} (hinner : inner.Denotes W (⟨b, u, true⟩ :: Γ) env)
    (houter : outer.Denotes W Γ env') (hv : v.Denotes W Γ u)
    (hresult : result.Denotes W (⟨b, u, true⟩ :: Γ) w) :
    Keeps W (finishCompound ctx inner outer b v result) fun r => r.Denotes W Γ w := by
  unfold finishCompound
  split_ifs with hknown
  · refine .pure (hresult.drop hinner.fresh ?_)
    rw [Bool.or_eq_true, Bool.and_eq_true] at hknown
    rcases hknown with hnow | hlater
    · cases result <;> first | rfl | simp [Staged.isNow] at hnow
    · exact Staged.avoids_of_not_hasLater (by simpa using hlater.1)
  · refine (Staged.residualize_denotes ctx hinner.residual hinner.fresh hresult).bind
      fun e he => ?_
    have houterInit := Staged.residualize_denotes ctx houter.residual houter.fresh hv
    split
    · next huses =>
      exact .pure (hresult.drop hinner.fresh (he.2 b.name (Term.uses_eq_zero.mp huses)))
    · refine houterInit.bind fun init hinit => .pure ?_
      exact ⟨Term.denotes_substitute hinit.1 he.1 hinner.fresh, hresult.isData⟩
    · refine houterInit.bind fun init hinit => .pure ?_
      exact ⟨Term.denotes_bind hinit.1 he.1 hinner.fresh, hresult.isData⟩

lemma Pending.discard_restores (hscope : scope.Denotes W Γ env) (hv : v.Denotes W Γ u) :
    (discard scope v).Restores W Γ Γ := by
  intro ctx result w hresult
  have hnothing : Keeps W (pure result) fun r => r.Denotes W Γ w := .pure hresult
  cases v <;> try exact hnothing
  next c init =>
    rw [discard]
    split_ifs
    · exact hnothing
    · change Keeps W (finishLater ctx scope blankName init result) fun r => r.Denotes W Γ w
      unfold finishLater
      by_cases hnow : result.isNow && init.isPure
      · rw [if_pos hnow]
        exact hnothing
      · rw [if_neg hnow]
        refine (Staged.residualize_denotes ctx hscope.residual hscope.fresh hresult).bind
          fun e he => ?_
        rw [if_neg (by simp)]
        split_ifs
        · exact hnothing
        · exact .pure ⟨Term.denotes_skip hv.1 he.1, hresult.isData⟩

lemma Scope.Denotes.reaches_eq_none (hscope : scope.Denotes W Γ env) {Δ : List Frame}
    {binding : Option Binding} (hreach : Frame.Reaches Γ u Δ binding)
    (hvisible : ¬(binding.filter scope.isVisible).isSome) : binding = none := by
  cases binding with
  | none => rfl
  | some b =>
    refine absurd ?_ hvisible
    have hb : scope.isVisible b := by
      rw [Scope.isVisible, hscope.residual]
      exact beq_iff_eq.mpr (hscope.fresh.find? hreach).1
    simp [Option.filter_some, hb]

lemma Pending.compound_restores (hscope : scope.Denotes W Γ env) (hv : v.Denotes W Γ u)
    {b : Binding} (hb : b.name ∉ W.names Γ) (source : String)
    (hbound : (v.withBinding b).Denotes W (⟨b, u, true⟩ :: Γ) u) :
    ∃ Δ, (named scope source (v.withBinding b) b (.compound b v)).inner.Denotes W Δ
        ((source, u) :: env) ∧
      (named scope source (v.withBinding b) b (.compound b v)).Restores W Γ Δ := by
  have hresidual : (scope.bindResidual b).Denotes W (⟨b, u, true⟩ :: Γ) env :=
    Scope.Denotes.bindResidual (f := ⟨b, u, true⟩) hscope hb
  have hinner := hresidual.bind hbound source
  exact ⟨_, hinner, fun ctx _ _ hresult =>
    finishCompound_denotes ctx hinner hscope hv hresult⟩

lemma Pending.prepare_denotes (hscope : scope.Denotes W Γ env) (hv : v.Denotes W Γ u)
    {source : String} (hsource : source ≠ blankName) :
    Keeps W (prepare scope source source v) fun p =>
      ∃ Δ, p.inner.Denotes W Δ ((source, u) :: env) ∧ p.Restores W Γ Δ := by
  have hdirect : Keeps W (pure (direct scope source v)) fun p =>
      ∃ Δ, p.inner.Denotes W Δ ((source, u) :: env) ∧ p.Restores W Γ Δ :=
    .pure ⟨Γ, hscope.bind hv source, fun _ _ _ hresult => .pure hresult⟩
  unfold prepare
  rw [if_neg hsource]
  by_cases hvisible : (scope.visibleBinding? v).isSome
  · rw [if_pos hvisible]
    exact hdirect
  · rw [if_neg hvisible]
    cases v with
    | now x c binding =>
      have hknown := hv
      obtain ⟨hx, hd, _⟩ := hknown
      simp only
      split_ifs
      · refine (hscope.freshBinding hsource).bind fun b hb => .pure ?_
        exact compound_restores hscope hv hb.1 source ⟨hx, hd, Γ, List.suffix_rfl⟩
      · exact hdirect
    | later c init =>
      simp only
      split_ifs
      · exact hdirect
      · refine (hscope.freshBinding hsource).bind fun b hb => .pure ?_
        have hresidual : (scope.bindResidual b).Denotes W (⟨b, u, false⟩ :: Γ) env :=
          Scope.Denotes.bindResidual (f := ⟨b, u, false⟩) hscope hb.1
        have hbound : (Staged.later c (.var b.name)).Denotes W (⟨b, u, false⟩ :: Γ) u :=
          ⟨Term.denotes_var hresidual.fresh List.suffix_rfl, hv.2⟩
        have hinner := hresidual.bind hbound source
        exact ⟨_, hinner, fun ctx _ _ hresult =>
          finishLater_denotes ctx hinner rfl hb.2 hv.1 hresult⟩
    | array items binding =>
      have hparts := hv
      obtain ⟨ws, Δ, hw, hreach, hitems⟩ := hparts
      obtain rfl := hscope.reaches_eq_none hreach hvisible
      obtain rfl : Δ = Γ := hreach
      refine (hscope.freshBinding hsource).bind fun b hb => .pure ?_
      exact compound_restores hscope hv hb.1 source ⟨ws, Δ, hw, List.suffix_rfl, hitems⟩
    | object fields binding =>
      have hparts := hv
      obtain ⟨ws, Δ, hw, hreach, hnodup, hfields⟩ := hparts
      obtain rfl := hscope.reaches_eq_none hreach hvisible
      obtain rfl : Δ = Γ := hreach
      refine (hscope.freshBinding hsource).bind fun b hb => .pure ?_
      exact compound_restores hscope hv hb.1 source ⟨ws, Δ, hw, List.suffix_rfl, hnodup, hfields⟩
    | closure g => exact hv.elim

end Bindings

end Stagewise
