import Stagewise.Proofs.UnfoldedMembership

/-! The variables of recursive constraints. Unfolding what a name was closed to puts the recursive
constraint for the name; unfolding frees no variable; and where the variable of a recursive
constraint does not occur, unfolding only closes the gap it leaves. The last is so for indices up to
`2 ^ 63`: beyond, moving an index down by one leads to zero. -/

set_option autoImplicit false

namespace Stagewise.Constraint

/-! ### Closing a name -/

mutual

def putRef (name : String) (r : Constraint) : Constraint → Constraint
  | .ref n => if n = name then r else .ref n
  | .fix body => .fix (putRef name r body)
  | .field n c => .field n (putRef name r c)
  | .elements c => .elements (putRef name r c)
  | .length c => .length (putRef name r c)
  | .elementAt i c => .elementAt i (putRef name r c)
  | .conj cs => .conj (putRefList name r cs)
  | .disj cs => .disj (putRefList name r cs)
  | .neg c => .neg (putRef name r c)
  | c => c
termination_by structural c => c

def putRefList (name : String) (r : Constraint) : List Constraint → List Constraint
  | [] => []
  | c :: cs => putRef name r c :: putRefList name r cs
termination_by structural cs => cs

end

section Close

variable {name : String}

mutual

theorem ClosedWithin.close : ∀ {c : Constraint} {d : Nat}, c.ClosedWithin d →
    (c.close name d).ClosedWithin (d + 1)
  | .ref n, d, _ => by
    rw [Constraint.close]
    split_ifs
    · simp [ClosedWithin, anyVar]
    · rfl
  | .bvar i, d, h => h.mono (Nat.le_succ d)
  | .fix body, _, h => ClosedWithin.close (c := body) h
  | .field _ c, _, h | .elements c, _, h | .length c, _, h | .elementAt _ c, _, h
  | .neg c, _, h => ClosedWithin.close (c := c) h
  | .conj cs, _, h | .disj cs, _, h => closedWithin_closeList cs h
  | .kind _, _, _ | .equals _, _, _ | .bound _ _, _, _ | .var _, _, _ | .any, _, _
  | .never, _, _ => rfl

theorem closedWithin_closeList : ∀ (cs : List Constraint) {d : Nat},
    anyVarList (fun depth i => depth ≤ i) d cs = false →
      anyVarList (fun depth i => depth ≤ i) (d + 1) (closeList name d cs) = false
  | [], _, _ => rfl
  | c :: cs, _, h => by
    rw [anyVarList, Bool.or_eq_false_iff] at h
    rw [closeList, anyVarList, Bool.or_eq_false_iff]
    exact ⟨ClosedWithin.close h.1, closedWithin_closeList cs h.2⟩

end

variable {f : Nat → Nat → Constraint} {r : Constraint}

mutual

theorem replaceVars_close (hf : Closes f r) : ∀ {c : Constraint} {d : Nat}, c.ClosedWithin d →
    (c.close name d).replaceVars f d = putRef name r c
  | .ref n, d, _ => by
    rw [close, putRef]
    split_ifs
    · exact hf.here d
    · rfl
  | .bvar i, d, h => by
    simp only [ClosedWithin, anyVar, decide_eq_false_iff_not, Nat.not_le] at h
    exact hf.inner d i h
  | .fix body, _, h => by rw [close, replaceVars, putRef, replaceVars_close hf (c := body) h]
  | .field _ c, _, h | .elements c, _, h | .length c, _, h | .elementAt _ c, _, h
  | .neg c, _, h => by rw [close, replaceVars, putRef, replaceVars_close hf (c := c) h]
  | .conj cs, _, h | .disj cs, _, h => by
    rw [close, replaceVars, putRef, replaceVarsList_closeList hf h]
  | .kind _, _, _ | .equals _, _, _ | .bound _ _, _, _ | .var _, _, _ | .any, _, _
  | .never, _, _ => rfl

theorem replaceVarsList_closeList (hf : Closes f r) : ∀ {cs : List Constraint} {d : Nat},
    anyVarList (fun depth i => depth ≤ i) d cs = false →
      replaceVarsList f d (closeList name d cs) = putRefList name r cs
  | [], _, _ => rfl
  | c :: cs, _, h => by
    rw [anyVarList, Bool.or_eq_false_iff] at h
    rw [closeList, replaceVarsList, putRefList, replaceVars_close hf h.1,
      replaceVarsList_closeList hf h.2]

end

end Close

lemma closedWithin_recursive (name : String) {body : Constraint} (h : body.ClosedWithin 0) :
    (recursive name body).ClosedWithin 0 :=
  ClosedWithin.close (c := body) h

lemma unfold_recursive (name : String) {body : Constraint} (h : body.ClosedWithin 0) :
    (recursive name body).unfold = putRef name (recursive name body) body :=
  replaceVars_close (closes_unfold (closedWithin_recursive name h)) h

/-! ### Free variables -/

def hasFreeVar (k : Nat) (c : Constraint) : Bool := c.anyVar (fun depth i => i == k + depth) 0

/-- Indices and depths are machine words. -/
def fitsWords (c : Constraint) : Prop :=
  c.anyVar (fun depth i => 2 ^ 64 ≤ depth || 2 ^ 64 ≤ i) 0 = false

lemma movedIndex_cases {i : Nat} (n : Nat) (hi : i < 2 ^ 64) :
    movedIndex n i = i + n ∨ movedIndex n i < n ∨ movedIndex n i = 0 := by
  simp only [movedIndex, Int.bmod]
  omega

lemma movedIndex_pred {i : Nat} (hpos : 0 < i) (hi : i ≤ 2 ^ 63) :
    movedIndex (-1) i = i - 1 := by
  simp only [movedIndex, Int.bmod]
  omega

lemma anyVarList_eq_true {p : Nat → Nat → Bool} {d : Nat} {cs : List Constraint} :
    anyVarList p d cs ↔ ∃ c ∈ cs, c.anyVar p d := by
  induction cs with
  | nil => simp [anyVarList]
  | cons c cs ih => simp [anyVarList, ih]

section Free

variable {k n : Nat}

theorem anyVar_lift : ∀ {c : Constraint} {d : Nat},
    c.anyVar (fun depth i => 2 ^ 64 ≤ depth || 2 ^ 64 ≤ i) (d + 1) = false →
    (c.replaceVars (fun depth i => .bvar (if depth ≤ i then movedIndex n i else i)) (d + 1)).anyVar
      (fun depth i => i == k + depth) (n + (d + 1)) →
    c.anyVar (fun depth i => i == k + depth) (d + 1)
  | .bvar i, d, hw, h => by
    simp only [anyVar, Bool.or_eq_false_iff, decide_eq_false_iff_not, Nat.not_le] at hw
    simp only [replaceVars, anyVar, beq_iff_eq] at h ⊢
    split_ifs at h
    · rcases movedIndex_cases n hw.2 with hm | hm | hm <;> omega
    · omega
  | .fix body, d, hw, h => anyVar_lift (c := body) (d := d + 1) hw h
  | .field _ c, _, hw, h | .elements c, _, hw, h | .length c, _, hw, h | .elementAt _ c, _, hw, h
  | .neg c, _, hw, h => anyVar_lift (c := c) hw h
  | .conj cs, _, hw, h | .disj cs, _, hw, h => by
    rw [replaceVars, replaceVarsList_eq_map, anyVar, anyVarList_eq_true] at h
    obtain ⟨_, hm, h⟩ := h
    obtain ⟨c, hc, rfl⟩ := List.mem_map.mp hm
    exact anyVarList_eq_true.mpr ⟨c, hc, anyVar_lift (anyVarList_eq_false.mp hw c hc) h⟩
  | .kind _, _, _, h | .equals _, _, _, h | .bound _ _, _, _, h | .ref _, _, _, h | .var _, _, _, h
  | .any, _, _, h | .never, _, _, h => absurd h Bool.false_ne_true

theorem anyVar_substitute {r : Constraint} (hr : ∀ d : Nat, (r.lift d).anyVar
      (fun depth i => i == k + depth) d → r.hasFreeVar k) : ∀ {c : Constraint} {d : Nat},
    (c.replaceVars (fun depth i => if i = depth then r.lift depth
      else .bvar (if depth < i then i - 1 else i)) d).anyVar (fun depth i => i == k + depth) d →
    c.anyVar (fun depth i => i == k + depth) (d + 1) ∨ r.hasFreeVar k
  | .bvar i, d, h => by
    rw [replaceVars] at h
    by_cases hi : i = d
    · rw [if_pos hi] at h
      exact .inr (hr d h)
    · refine .inl ?_
      rw [if_neg hi] at h
      simp only [anyVar, beq_iff_eq] at h ⊢
      split_ifs at h <;> omega
  | .fix body, d, h => anyVar_substitute hr (c := body) (d := d + 1) h
  | .field _ c, _, h | .elements c, _, h | .length c, _, h | .elementAt _ c, _, h
  | .neg c, _, h => anyVar_substitute hr (c := c) h
  | .conj cs, _, h | .disj cs, _, h => by
    rw [replaceVars, replaceVarsList_eq_map, anyVar, anyVarList_eq_true] at h
    obtain ⟨_, hm, h⟩ := h
    obtain ⟨c, hc, rfl⟩ := List.mem_map.mp hm
    exact (anyVar_substitute hr h).imp_left fun h => anyVarList_eq_true.mpr ⟨c, hc, h⟩
  | .kind _, _, h | .equals _, _, h | .bound _ _, _, h | .ref _, _, h | .var _, _, h
  | .any, _, h | .never, _, h => absurd h Bool.false_ne_true

lemma hasFreeVar_of_unfold {body : Constraint} (hw : (fix body).fitsWords)
    (h : (fix body).unfold.hasFreeVar k) : (fix body).hasFreeVar k := by
  have hr (d : Nat) (h : ((fix body).lift d).anyVar (fun depth i => i == k + depth) d) :
      (fix body).hasFreeVar k :=
    anyVar_lift (c := body) (d := 0) hw h
  exact (anyVar_substitute hr (c := body) (d := 0) h).elim id id

end Free

/-! ### A binder that is not mentioned -/

theorem replaceVars_congr {f g : Nat → Nat → Constraint} {p : Nat → Nat → Bool}
    (hfg : ∀ depth i, p depth i = false → f depth i = g depth i) :
    ∀ {c : Constraint} {d : Nat}, c.anyVar p d = false → c.replaceVars f d = c.replaceVars g d
  | .bvar i, d, h => hfg d i h
  | .fix body, _, h => by rw [replaceVars, replaceVars, replaceVars_congr hfg (c := body) h]
  | .field _ c, _, h | .elements c, _, h | .length c, _, h | .elementAt _ c, _, h
  | .neg c, _, h => by rw [replaceVars, replaceVars, replaceVars_congr hfg (c := c) h]
  | .conj cs, _, h | .disj cs, _, h => by
    rw [replaceVars, replaceVars, replaceVarsList_eq_map, replaceVarsList_eq_map,
      List.map_congr_left fun c hc => replaceVars_congr hfg (anyVarList_eq_false.mp h c hc)]
  | .kind _, _, _ | .equals _, _, _ | .bound _ _, _, _ | .ref _, _, _ | .var _, _, _
  | .any, _, _ | .never, _, _ => rfl

theorem anyVar_or {p q : Nat → Nat → Bool} : ∀ {c : Constraint} {d : Nat},
    c.anyVar p d = false → c.anyVar q d = false → c.anyVar (fun d i => p d i || q d i) d = false
  | .bvar i, d, hp, hq => Bool.or_eq_false_iff.mpr ⟨hp, hq⟩
  | .fix body, _, hp, hq => anyVar_or (c := body) hp hq
  | .field _ c, _, hp, hq | .elements c, _, hp, hq | .length c, _, hp, hq
  | .elementAt _ c, _, hp, hq | .neg c, _, hp, hq => anyVar_or (c := c) hp hq
  | .conj cs, _, hp, hq | .disj cs, _, hp, hq =>
    anyVarList_eq_false.mpr fun c hc =>
      anyVar_or (anyVarList_eq_false.mp hp c hc) (anyVarList_eq_false.mp hq c hc)
  | .kind _, _, _, _ | .equals _, _, _, _ | .bound _ _, _, _, _ | .ref _, _, _, _ | .var _, _, _, _
  | .any, _, _, _ | .never, _, _, _ => rfl

def movesDown (c : Constraint) : Prop := c.anyVar (fun _ i => 2 ^ 63 < i) 0 = false

section NotMentioned

variable {body : Constraint}

lemma unfold_eq_lift (hself : body.mentionsSelf = false) (hdown : body.movesDown) :
    (fix body).unfold = body.lift (-1) := by
  refine replaceVars_congr (fun depth i h => ?_) (anyVar_or hself hdown)
  simp only [Bool.or_eq_false_iff, beq_eq_false_iff_ne, decide_eq_false_iff_not, Nat.not_lt] at h
  rcases Nat.lt_or_ge depth i with hlt | hge
  · rw [if_neg h.1, if_pos hlt, if_pos (Nat.le_of_lt hlt), movedIndex_pred (by omega) h.2]
  · rw [if_neg h.1, if_neg (Nat.not_lt.mpr hge), if_neg (by omega)]

lemma shift_zero_eq_lift (hw : body.fitsWords) (offset : Int) :
    body.shift offset 0 = body.lift offset := by
  refine replaceVars_congr (fun depth i h => ?_) hw
  simp only [Bool.or_eq_false_iff, decide_eq_false_iff_not, Nat.not_le] at h
  have hdepth : ((0 : UInt64) + UInt64.ofNat depth).toNat = depth := by
    rw [UInt64.zero_add, UInt64.toNat_ofNat']
    exact Nat.mod_eq_of_lt h.1
  rw [hdepth]

end NotMentioned

/-- Unfolding the recursive constraint of a name puts it for every reference to the name and leaves
no free variable. Unfolding any recursive constraint frees no variable. Where the variable of a
recursive constraint does not occur, unfolding moves the others down. -/
theorem unfold_bookkeeping (body : Constraint) :
    (∀ name : String, body.hasFree = false →
      (recursive name body).unfold = putRef name (recursive name body) body ∧
        (recursive name body).unfold.hasFree = false) ∧
    ((fix body).fitsWords → ∀ k : Nat, (fix body).unfold.hasFreeVar k → (fix body).hasFreeVar k) ∧
    (body.fitsWords → body.movesDown → body.mentionsSelf = false →
      (fix body).unfold = body.shift (-1) 0 ∧ (fix body).unfold = body.lift (-1)) := by
  refine ⟨fun name h => ⟨unfold_recursive name h, ?_⟩, fun hw k => hasFreeVar_of_unfold hw, ?_⟩
  · exact closed_unfold (closedWithin_recursive name h)
  · intro hw hdown hself
    have hlift := unfold_eq_lift hself hdown
    exact ⟨hlift.trans (shift_zero_eq_lift hw (-1)).symm, hlift⟩

theorem unfold_bookkeeping_crossing :
    let inner : Constraint := .recursive "Inner" (.disj [.ref "Outer", .field "next" (.ref "Inner")])
    let crossing : Constraint := .fix (.fix (.conj [.bvar 1, .bvar 0, .bvar 4]))
    let unmentioned : Constraint := .fix (.conj [.bvar 0, .bvar 3])
    (recursive "Outer" inner).unfold = putRef "Outer" (recursive "Outer" inner) inner ∧
      crossing.unfold.hasFreeVar 2 ∧ crossing.hasFreeVar 2 ∧
      (fix unmentioned).unfold = unmentioned.shift (-1) 0 := by
  intro inner crossing unmentioned
  have hfree : crossing.unfold.hasFreeVar 2 := by decide
  exact ⟨((unfold_bookkeeping inner).1 "Outer" (by decide)).1, hfree,
    (unfold_bookkeeping _).2.1 (by unfold fitsWords; decide) 2 hfree,
    ((unfold_bookkeeping unmentioned).2.2 (by unfold fitsWords; decide)
      (by unfold movesDown; decide) (by decide)).1⟩

/-- A free variable with an index beyond `2 ^ 63`: unfolding moves it down by one, the shift makes
it the innermost variable. -/
theorem unfold_ne_shift :
    let body : Constraint := .bvar (2 ^ 63 + 1)
    body.fitsWords ∧ body.mentionsSelf = false ∧ (fix body).unfold = .bvar (2 ^ 63) ∧
      body.shift (-1) 0 = .bvar 0 ∧ finishFix body = .bvar 0 := by
  refine ⟨by unfold fitsWords; decide, by decide, by rfl, by rfl, by rfl⟩

end Stagewise.Constraint
