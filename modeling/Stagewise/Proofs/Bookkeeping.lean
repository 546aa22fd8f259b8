import Stagewise.Proofs.SessionRun
import Stagewise.Proofs.StraightLine

/-! The bookkeeping of specializations. However staging goes on, there are never more of them than
allowed, those of a binding have different keys, and each has a name of its own that no other part
of the residual program is given. -/

set_option autoImplicit false

namespace Stagewise

open Association

/-! ### Keys -/

namespace SpecialArg

def isWellFormed : SpecialArg → Bool
  | value v => v.isWellFormed
  | type c => c.isWellFormed
  | dynamic => true

lemma same_symm {a b : SpecialArg} (ha : a.isWellFormed) (h : a == b) : b == a := by
  cases a <;> cases b <;> first | exact h | skip
  · exact Value.same_symm ha h
  · exact Constraint.same_symm ha h

lemma keys_symm {key other : List SpecialArg} (hkey : key.all isWellFormed) (h : key == other) :
    other == key := by
  induction key generalizing other with
  | nil => cases other <;> simp_all
  | cons a key ih =>
    cases other with
    | nil => simp at h
    | cons b other =>
      simp only [List.all_cons, Bool.and_eq_true] at hkey
      simp only [List.cons_beq_cons, Bool.and_eq_true] at h ⊢
      exact ⟨same_symm hkey.1 h.1, ih hkey.2 h.2⟩

end SpecialArg

namespace Definitions

structure Kept (names : List String) (definitions : Definitions) : Prop where
  keys : definitions.special.Pairwise fun s t => (s.key == t.key) = false
  names : ∀ s ∈ definitions.special, s.name ∈ names

variable {names more : List String} {definitions : Definitions}

lemma kept_empty : Kept names {} := ⟨.nil, by simp⟩

lemma Kept.mono (h : definitions.Kept names) (hsub : names ⊆ more) : definitions.Kept more :=
  ⟨h.keys, fun s hs => hsub (h.names s hs)⟩

lemma Kept.append (h : definitions.Kept names) {special : Specialization}
    (hkey : ∀ s ∈ definitions.special, (s.key == special.key) = false)
    (hname : special.name ∈ names) :
    Kept names { definitions with special := definitions.special ++ [special] } := by
  refine ⟨List.pairwise_append.mpr ⟨h.keys, List.pairwise_singleton _ _, ?_⟩, ?_⟩
  · simpa using hkey
  · intro s hs
    rcases List.mem_append.mp hs with hs | hs
    · exact h.names s hs
    · exact List.mem_singleton.mp hs ▸ hname

lemma map_update (key : List SpecialArg) (progress : Progress) (specials : List Specialization) :
    (Session.setSpecial.update key progress specials).map (fun s => (s.key, s.name)) =
      specials.map fun s => (s.key, s.name) := by
  induction specials with
  | nil => rfl
  | cons s specials ih =>
    unfold Session.setSpecial.update
    split_ifs <;> simp [ih]

lemma Kept.of_map_eq {other : Definitions} (h : definitions.Kept names)
    (heq : other.special.map (fun s => (s.key, s.name)) =
      definitions.special.map fun s => (s.key, s.name)) : other.Kept names := by
  have hkeys : (definitions.special.map fun s => (s.key, s.name)).Pairwise
      fun a b => (a.1 == b.1) = false := List.pairwise_map.mpr h.keys
  have hnames : ∀ a ∈ definitions.special.map fun s => (s.key, s.name), a.2 ∈ names :=
    List.forall_mem_map.mpr h.names
  rw [← heq] at hkeys hnames
  exact ⟨List.pairwise_map.mp hkeys,
    fun s hs => hnames _ (List.mem_map_of_mem hs)⟩

end Definitions

namespace Session

variable {limit : Nat} {s t : Session} {names more : List String}

def Keeps (s : Session) (names : List String) : Prop :=
  ∀ entry ∈ s.definitions, entry.2.Kept names

lemma Keeps.definitionsOf (h : s.Keeps names) (id : Nat) : (s.definitionsOf id).Kept names := by
  unfold Session.definitionsOf
  cases hf : find? id s.definitions with
  | none => exact Definitions.kept_empty
  | some definitions => exact h _ (mem_of_find?_eq_some hf)

lemma Keeps.setDefinitions (h : s.Keeps names) (id : Nat) {definitions : Definitions}
    (hd : definitions.Kept names) : (s.setDefinitions id definitions).Keeps names :=
  forall_mem_put (P := Definitions.Kept names) hd h

lemma Keeps.mono (h : s.Keeps names) (hsub : names ⊆ more) : s.Keeps more :=
  fun entry he => (h entry he).mono hsub

lemma Keeps.of_definitions_eq (h : s.Keeps names) (heq : t.definitions = s.definitions) :
    t.Keeps names := by
  unfold Keeps
  rwa [heq]

lemma Keeps.create (h : s.Keeps names) {id : Nat} {key : List SpecialArg} {name : String}
    (hkey : ∀ u ∈ (s.definitionsOf id).special, (u.key == key) = false) :
    (s.create id key name).Keeps (names ++ [name]) := by
  have h' : s.Keeps (names ++ [name]) := h.mono (List.subset_append_left _ _)
  exact Keeps.setDefinitions (h'.of_definitions_eq rfl) id
    ((h'.definitionsOf id).append hkey (by simp))

lemma Keeps.setSpecial (h : s.Keeps names) (id : Nat) (key : List SpecialArg)
    (progress : Progress) : (s.setSpecial id key progress).Keeps names := by
  unfold Session.setSpecial
  split
  · exact h
  · next definitions hf =>
    refine h.setDefinitions id ?_
    exact (h _ (mem_of_find?_eq_some hf)).of_map_eq (Definitions.map_update key progress _)

lemma Keeps.setGeneral (h : s.Keeps names) (id : Nat) (progress : Progress) :
    (s.setGeneral id progress).Keeps names :=
  h.setDefinitions id ((h.definitionsOf id).of_map_eq rfl)

lemma Keeps.erase (h : s.Keeps names) (id : Nat) :
    Keeps { s with definitions := Association.erase id s.definitions } names :=
  fun entry he => h entry (List.mem_of_mem_filter he)

lemma setSpecial_specializations (s : Session) (id : Nat) (key : List SpecialArg)
    (progress : Progress) : (s.setSpecial id key progress).specializations = s.specializations := by
  unfold setSpecial
  split <;> rfl

lemma setSpecial_reserved (s : Session) (id : Nat) (key : List SpecialArg)
    (progress : Progress) : (s.setSpecial id key progress).reserved = s.reserved := by
  unfold setSpecial
  split <;> rfl

structure Tracks (limit : Nat) (start : Session) (names : List String) (s : Session) : Prop where
  count : s.specializations = start.specializations + names.length
  limited : s.specializations ≤ limit
  reserved : s.reserved = names.reverse ++ start.reserved
  distinct : names.Nodup
  fresh : ∀ name ∈ names, name ∉ start.reserved
  keeps : s.Keeps names

lemma tracks_start (e : Term) : Tracks limit (.start e) [] (.start e) where
  count := rfl
  limited := Nat.zero_le limit
  reserved := rfl
  distinct := .nil
  fresh := by simp
  keeps := by simp [Keeps, Session.start]

namespace Tracks

variable {start : Session}

lemma quiet (h : Tracks limit start names s) (hcount : t.specializations = s.specializations)
    (hreserved : t.reserved = s.reserved) (hkeeps : t.Keeps names) :
    Tracks limit start names t where
  count := hcount.trans h.count
  limited := hcount ▸ h.limited
  reserved := hreserved.trans h.reserved
  distinct := h.distinct
  fresh := h.fresh
  keeps := hkeeps

lemma create (h : Tracks limit start names s) {id : Nat} {key : List SpecialArg} {name : String}
    (hlimit : s.specializations < limit) (hname : name ∉ s.reserved)
    (hkey : ∀ u ∈ (s.definitionsOf id).special, (u.key == key) = false) :
    Tracks limit start (names ++ [name]) (s.create id key name) := by
  rw [h.reserved, List.mem_append, List.mem_reverse, not_or] at hname
  refine ⟨?_, hlimit, ?_, ?_, ?_, h.keeps.create hkey⟩
  · have hcount := h.count
    rw [List.length_append, List.length_singleton, ← Nat.add_assoc, ← hcount]
    rfl
  · rw [List.reverse_append, List.reverse_singleton, List.append_assoc, ← h.reserved]
    rfl
  · refine List.nodup_append.mpr ⟨h.distinct, List.nodup_singleton name, fun n hn m hm => ?_⟩
    obtain rfl := List.mem_singleton.mp hm
    exact ne_of_mem_of_not_mem hn hname.1
  · intro n hn
    rcases List.mem_append.mp hn with hn | hn
    · exact h.fresh n hn
    · exact List.mem_singleton.mp hn ▸ hname.2

lemma change (h : Tracks limit start names s) (hc : Change limit s more t) :
    Tracks limit start (names ++ more) t := by
  cases hc with
  | other hcount hreserved hdefs =>
    rw [List.append_nil]
    exact h.quiet hcount hreserved (h.keeps.of_definitions_eq hdefs)
  | create id key name hlimit hname hkey => exact h.create hlimit hname hkey
  | finish id key progress =>
    rw [List.append_nil]
    exact h.quiet (setSpecial_specializations s id key progress)
      (setSpecial_reserved s id key progress) (h.keeps.setSpecial id key progress)
  | general id progress =>
    rw [List.append_nil]
    exact h.quiet rfl rfl (h.keeps.setGeneral id progress)
  | take id =>
    rw [List.append_nil]
    exact h.quiet rfl rfl (h.keeps.erase id)

lemma run (h : Tracks limit start names s) (hr : s.Run limit more t) :
    Tracks limit start (names ++ more) t := by
  induction hr with
  | refl => rwa [List.append_nil]
  | tail _ hstep ih =>
    rw [← List.append_assoc]
    exact ih.change hstep

lemma freshName_notMem (h : Tracks limit start names s) (base : String) (scope : Scope) :
    s.freshName base scope ∉ names := by
  intro hmem
  refine Session.freshName_notMem s base scope (List.mem_append_right _ ?_)
  rw [h.reserved]
  exact List.mem_append_left _ (List.mem_reverse.mpr hmem)

end Tracks

end Session

/-- Specializations are kept track of in every session that staging comes to. Staging any part of a
program, or expressing any value, changes the session by a run, whether it succeeds or fails; and
after every run from the start the specializations that were made are counted and no more than
allowed, those of a binding have different keys, and their names are pairwise different, are
neither registered nor reserved for the inputs of the program, and are not handed out again. -/
theorem Term.specializations_tracked (imports : Imports) (options : Options) (e : Term) :
    ((∀ (levels : Nat) (part : Term) (scope : Scope),
        (part.stage (.ofLevels options imports levels) scope).Runs options.maxSpecializations) ∧
      (∀ (levels : Nat) (v : Staged) (scope : Scope),
        (v.residualize (.ofLevels options imports levels) scope).Runs
          options.maxSpecializations) ∧
      (e.stageWhole (.ofOptions options imports)).Runs options.maxSpecializations) ∧
    ∀ (names : List String) (s : Session),
      (Session.start e).Run options.maxSpecializations names s →
        (s.specializations = names.length ∧ s.specializations ≤ options.maxSpecializations) ∧
        (∀ entry ∈ s.definitions,
          (entry.2.special.Pairwise fun a b => (a.key == b.key) = false ∧
            (b.key.all SpecialArg.isWellFormed → (b.key == a.key) = false)) ∧
          ∀ special ∈ entry.2.special, special.name ∈ names) ∧
        (names.Nodup ∧ (∀ name ∈ names, name ∉ e.reservedNames) ∧
          ∀ (base : String) (scope : Scope), s.freshName base scope ∉ names) := by
  have hlevels := Context.runs_ofLevels options imports
  refine ⟨⟨fun levels part scope => part.runs_stage (hlevels levels) scope,
    fun levels v scope => v.runs_residualize (hlevels levels) scope,
    e.runs_stageWhole (hlevels _)⟩, fun names s hrun => ?_⟩
  have htracks : Session.Tracks _ _ names s := (Session.tracks_start e).run hrun
  refine ⟨⟨by simpa [Session.start] using htracks.count, htracks.limited⟩, fun entry he => ?_,
    htracks.distinct, htracks.fresh, htracks.freshName_notMem⟩
  have hkept := htracks.keeps entry he
  refine ⟨hkept.keys.imp fun {a b} hab => ⟨hab, fun hb => ?_⟩, hkept.names⟩
  by_contra hba
  rw [Bool.not_eq_false] at hba
  simp [SpecialArg.keys_symm hb hba] at hab

/-- The program `let f = fn(k, x) { [comptime(k), x] } in [f(1, runtime(0, "a")),
f(2, runtime(0, "b")), f(1, runtime(0, "c"))]`. -/
def Term.threeCalls : Term :=
  let call (k : Nat) (name : String) : Item :=
    .item (.callNamed "f" [.number (.ofNat k),
      .callNamed "runtime" [.number (.ofNat 0), .string name]])
  .letIn (.binding "f")
    (.lambda (.untyped 0 none ["k", "x"]
      (.array [.item (.callNamed "comptime" [.var "k"]), .item (.var "x")])))
    (.array [call 1 "a", call 2 "b", call 1 "c"])

theorem Term.specializations_tracked_threeCalls :
    ∃ names, (Session.start threeCalls).Run 64 names
        ((threeCalls.stageWhole (.ofOptions {} [])).after (.start threeCalls)) ∧
      names.length = 2 ∧ names.Nodup := by
  have htracked := Term.specializations_tracked [] {} threeCalls
  obtain ⟨names, hrun⟩ := htracked.1.2.2 (.start threeCalls)
  obtain ⟨⟨hcount, _⟩, _, hdistinct, _⟩ := htracked.2 names _ hrun
  have htwo : ((threeCalls.stageWhole (.ofOptions {} [])).after
      (.start threeCalls)).specializations = 2 := by
    decide +kernel
  exact ⟨names, hrun, hcount.symm.trans htwo, hdistinct⟩

/-- The program `let f = fn(k, x) { [comptime(keys(k)), x] } in [f({ a: 1, b: 2 }, runtime(1, "a")),
f({ b: 2, a: 1 }, runtime(2, "b"))]`. -/
def Term.keysOfPairs : Term :=
  let field (name : String) (n : Nat) : Entry := .field name (.number (.ofNat n))
  let call (entries : List Entry) (n : Nat) (name : String) : Item :=
    .item (.callNamed "f" [.object entries, .runtime (.number (.ofNat n)) name])
  .letIn (.binding "f")
    (.lambda (.untyped 0 none ["k", "x"]
      (.array [.item (.comptime (.callNamed "keys" [.var "k"])), .item (.var "x")])))
    (.array [call [field "a" 1, field "b" 2] 1 "a", call [field "b" 2, field "a" 1] 2 "b"])

/-- Objects with the same fields in different order have identical keys and share a specialization,
though `keys` tells them apart. -/
theorem Term.residual_keysOfPairs_ne :
    ∃ p v w, Term.keysOfPairs.staged [] {} = .ok p ∧ p.specializations = 1 ∧
      Term.keysOfPairs.run [] {} = .ok v ∧
      (p.residual.withInputs [("a", .ofNat 1), ("b", .ofNat 2)]).run [] {} = .ok w ∧
      (v == w) = false := by
  have hcheck : ((Term.keysOfPairs.staged [] {}).toOption.any fun p =>
      (Term.keysOfPairs.run [] {}).toOption.any fun v =>
        ((p.residual.withInputs [("a", .ofNat 1), ("b", .ofNat 2)]).run [] {}).toOption.any fun w =>
          p.specializations == 1 && !(v == w)) = true := by
    decide +kernel
  have hok {α : Type} {o : Outcome α} {a : α} (h : o.toOption = some a) : o = .ok a := by
    cases o <;> simp_all [Except.toOption]
  obtain ⟨p, hp, hcheck⟩ := (Option.any_eq_true _ _).mp hcheck
  obtain ⟨v, hv, hcheck⟩ := (Option.any_eq_true _ _).mp hcheck
  obtain ⟨w, hw, hcheck⟩ := (Option.any_eq_true _ _).mp hcheck
  rw [Bool.and_eq_true, beq_iff_eq, Bool.not_eq_true'] at hcheck
  exact ⟨p, v, w, hok hp, hcheck.1, hok hv, hok hw, hcheck.2⟩

end Stagewise
