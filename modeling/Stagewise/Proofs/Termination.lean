import Stagewise.Proofs.Descent
import Mathlib.Tactic.Linarith
import Mathlib.Tactic.Ring

/-! The algebra of constraints terminates where there is no recursion. The rank of a question is
below the allowance for its size, so the answers within the allowance solve the equations of the
recursion, whatever is answered where it is cut off. -/

set_option autoImplicit false

namespace Stagewise.Constraint

/-! ### Agreement -/

namespace Answers

variable {l l' l'' : Answers} {k : Scale} {q : Question} {n m : Nat}

lemma Agree.symm (h : l.Agree l' q) : l'.Agree l q := by
  cases q <;> exact Eq.symm h

lemma Agree.trans (h : l.Agree l' q) (h' : l'.Agree l'' q) : l.Agree l'' q := by
  cases q <;> exact Eq.trans h h'

lemma after_add (l : Answers) (m n : Nat) : l.after (m + n) = (l.after m).after n := by
  induction n with
  | zero => rfl
  | succ n ih => rw [← Nat.add_assoc, after, ih, after]

theorem after_agree (hq : Ranked k q n) (hn : n < m) (l l' : Answers) :
    (l.after m).Agree (l'.after m) q := by
  induction m generalizing q n with
  | zero => exact absurd hn (Nat.not_lt_zero n)
  | succ m ih =>
    refine step_agree fun q' ha => ?_
    obtain ⟨n', hlt, hq'⟩ := (Sound.after l m).asks hq (Nat.le_of_lt_succ hn) ha
    exact ih hq' (by omega)

lemma after_agree_of_le {m' : Nat} (hq : Ranked k q n) (hn : n < m) (hm : m ≤ m')
    (l l' : Answers) : (l.after m).Agree (l'.after m') q := by
  obtain ⟨j, rfl⟩ : ∃ j, m' = j + m := ⟨m' - m, by omega⟩
  rw [after_add]
  exact after_agree hq hn l (l'.after j)

end Answers

/-! ### Room for a constraint -/

def joinBelow : List Nat → List Nat → List Nat
  | [], bs => bs
  | as, [] => as
  | a :: as, b :: bs => max a b :: joinBelow as bs

lemma covered_joinBelow_left : ∀ as bs : List Nat, Room.Covered as (joinBelow as bs)
  | [], _ => by simp only [Room.Covered]
  | _ :: _, [] => by rw [joinBelow]; exacts [.refl _, by simp]
  | a :: as, b :: bs => by
    rw [joinBelow]
    exact ⟨Nat.le_max_left a b, covered_joinBelow_left as bs⟩

lemma covered_joinBelow_right : ∀ as bs : List Nat, Room.Covered bs (joinBelow as bs)
  | [], bs => by rw [joinBelow]; exact .refl bs
  | _ :: _, [] => by simp only [Room.Covered]
  | a :: as, b :: bs => by
    rw [joinBelow]
    exact ⟨Nat.le_max_right a b, covered_joinBelow_right as bs⟩

lemma sum_joinBelow_le : ∀ as bs : List Nat, (joinBelow as bs).sum + (joinBelow as bs).length ≤
    as.sum + as.length + (bs.sum + bs.length)
  | [], bs | a :: as, [] => by simp [joinBelow]
  | a :: as, b :: bs => by
    have ih := sum_joinBelow_le as bs
    simp only [joinBelow, List.sum_cons, List.length_cons]
    omega

namespace Room

def join (r s : Room) : Room :=
  ⟨max r.base s.base, 0, max r.here s.here, joinBelow r.below s.below⟩

variable {r s : Room}

lemma le_join_left (h : r.age = 0) : r.Le (r.join s) :=
  ⟨Nat.le_max_left _ _, h.le, Nat.le_max_left _ _, covered_joinBelow_left _ _⟩

lemma le_join_right (h : s.age = 0) : s.Le (r.join s) :=
  ⟨Nat.le_max_right _ _, h.le, Nat.le_max_right _ _, covered_joinBelow_right _ _⟩

lemma phase_join_le : (r.join s).phase + (r.join s).base ≤
    r.phase + r.base + (s.phase + s.base) := by
  have h := sum_joinBelow_le r.below s.below
  simp only [phase, extent, join]
  omega

lemma base_le_cap (r : Room) : r.base ≤ r.cap :=
  Nat.le_mul_of_pos_right _ (Nat.fib_pos.mpr (by omega))

end Room

variable {c d : Constraint} {cs : List Constraint} {r : Room} {m : Nat}

lemma IsPlain.inner (hp : IsPart c d) (h : c.IsPlain) : d.IsPlain := by
  obtain ⟨hf, hw⟩ := h
  cases hp <;> exact ⟨by simpa only [Constraint.isRecursionFree] using hf,
    by simpa only [Constraint.isWellFormed] using hw⟩

lemma exists_room_part (hp : IsPart c d) (ha : r.age = 0) (hd : d.Fills r r.base) :
    ∃ s : Room, s.age = 0 ∧ s.phase + s.base = r.phase + r.base + 1 ∧ c.Fills s s.base := by
  refine ⟨⟨r.base, 0, 0, r.here :: r.below⟩, rfl, ?_, hp.fills_iff.mpr ⟨by simp, ?_⟩⟩
  · simp only [Room.phase, Room.extent, List.sum_cons, List.length_cons]
    omega
  · have heq : Room.inPart ⟨r.base, 0, 0, r.here :: r.below⟩ = r := by
      simp only [Room.inPart, List.headD_cons, List.tail_cons, ← ha]
    rw [heq]
    exact hd.of_le r.base_le_cap

lemma fills_raised (ha : r.age = 0) (hc : c.Fills r r.base) :
    c.Fills ⟨r.base + 1, 0, r.here, r.below⟩ r.base :=
  hc.mono ⟨Nat.le_succ _, ha.le, Nat.le_refl _, .refl _⟩ (Nat.le_refl _)

mutual

theorem exists_room : ∀ {c : Constraint}, c.IsPlain →
    ∃ r : Room, r.age = 0 ∧ r.phase + r.base ≤ c.size ∧ c.Fills r r.base
  | .field name c, h => by
    obtain ⟨r, ha, hr, hc⟩ := exists_room (h.inner (.field name c))
    obtain ⟨s, hs, he, hf⟩ := exists_room_part (.field name c) ha hc
    exact ⟨s, hs, by rw [size]; omega, hf⟩
  | .elements c, h => by
    obtain ⟨r, ha, hr, hc⟩ := exists_room (h.inner (.elements c))
    obtain ⟨s, hs, he, hf⟩ := exists_room_part (.elements c) ha hc
    exact ⟨s, hs, by rw [size]; omega, hf⟩
  | .length c, h => by
    obtain ⟨r, ha, hr, hc⟩ := exists_room (h.inner (.length c))
    obtain ⟨s, hs, he, hf⟩ := exists_room_part (.length c) ha hc
    exact ⟨s, hs, by rw [size]; omega, hf⟩
  | .elementAt i c, h => by
    obtain ⟨r, ha, hr, hc⟩ := exists_room (h.inner (.elementAt i c))
    obtain ⟨s, hs, he, hf⟩ := exists_room_part (.elementAt i c) ha hc
    exact ⟨s, hs, by rw [size]; omega, hf⟩
  | .neg c, ⟨hf, hw⟩ => by
    obtain ⟨r, ha, hr, hc⟩ := exists_room (c := c)
      ⟨by simpa only [isRecursionFree] using hf, by simpa only [isWellFormed] using hw⟩
    refine ⟨⟨r.base, 0, r.here + 1, r.below⟩, rfl, ?_, fills_neg.mpr ⟨Nat.succ_pos _, ?_⟩⟩
    · simp only [Room.phase, Room.extent] at hr ⊢
      rw [size]
      omega
    · have heq : Room.inNeg ⟨r.base, 0, r.here + 1, r.below⟩ = r := by
        simp only [Room.inNeg, Nat.add_sub_cancel, ← ha]
      rw [heq]
      exact hc.of_le r.base_le_cap
  | .disj cs, ⟨hf, hw⟩ => by
    obtain ⟨r, ha, hr, hc⟩ := @exists_room_list cs
      (by simpa only [isRecursionFree] using hf) (by simpa only [isWellFormed] using hw)
    refine ⟨⟨r.base + 1, 0, r.here, r.below⟩, rfl, ?_,
      fills_disj_of_forall fun c hc' => fills_raised ha (hc c hc')⟩
    simp only [Room.phase, Room.extent] at hr ⊢
    rw [size]
    omega
  | .conj cs, ⟨hf, hw⟩ => by
    obtain ⟨r, ha, hr, hc⟩ := @exists_room_list cs
      (by simpa only [isRecursionFree] using hf) (by simpa only [isWellFormed] using hw)
    refine ⟨⟨r.base + 1, 0, r.here, r.below⟩, rfl, ?_, fills_conj.mpr fun c hc' => ?_⟩
    · simp only [Room.phase, Room.extent] at hr ⊢
      rw [size]
      omega
    · have hfill := fills_raised ha (hc c hc')
      split_ifs
      · exact ⟨Nat.succ_pos _, hfill⟩
      · exact hfill.of_le (Nat.le_succ _)
  | .equals v, ⟨_, hw⟩ =>
    ⟨⟨0, 0, 0, []⟩, rfl, by simp [Room.phase, Room.extent],
      by simpa only [Fills, isWellFormed] using hw⟩
  | .fix _, ⟨hf, _⟩ => by simp [isRecursionFree] at hf
  | .kind _, _ | .bound _ _, _ | .bvar _, _ | .ref _, _ | .var _, _ | .any, _ | .never, _ =>
    ⟨⟨0, 0, 0, []⟩, rfl, by simp [Room.phase, Room.extent], by simp only [Fills]⟩

theorem exists_room_list : ∀ {cs : List Constraint}, areRecursionFree cs → areWellFormed cs →
    ∃ r : Room, r.age = 0 ∧ r.phase + r.base ≤ sizeList cs ∧ ∀ c ∈ cs, c.Fills r r.base
  | [], _, _ => ⟨⟨0, 0, 0, []⟩, rfl, by simp [Room.phase, Room.extent], by simp⟩
  | c :: cs, hf, hw => by
    simp only [areRecursionFree, Bool.and_eq_true] at hf
    simp only [areWellFormed, Bool.and_eq_true] at hw
    obtain ⟨r, hr, hrs, hc⟩ := exists_room (c := c) ⟨hf.1, hw.1⟩
    obtain ⟨s, hs, hss, hcs⟩ := exists_room_list hf.2 hw.2
    refine ⟨r.join s, rfl, ?_, ?_⟩
    · have hle := @Room.phase_join_le r s
      rw [sizeList]
      omega
    · rw [List.forall_mem_cons]
      exact ⟨hc.mono (Room.le_join_left hr) (Nat.le_max_left _ _),
        fun d hd => (hcs d hd).mono (Room.le_join_right hs) (Nat.le_max_right _ _)⟩

end

/-! ### The rank against the allowance -/

lemma square_growth (n : Nat) : (n + 11) ^ 2 * ((n + 10) ^ 2 + 2 * (n + 9) ^ 2) ≤
    (n + 9) ^ 2 * (n + 10) ^ 2 * 4 := by
  nlinarith [Nat.zero_le (n ^ 4), Nat.zero_le (n ^ 3), Nat.zero_le (n ^ 2)]

lemma square_mul_add_le {n f g p : Nat} (h0 : (n + 9) ^ 2 * f ≤ p)
    (h1 : (n + 10) ^ 2 * g ≤ 2 * p) : (n + 11) ^ 2 * (f + g) ≤ 4 * p := by
  have hpos : 0 < (n + 9) ^ 2 * (n + 10) ^ 2 :=
    Nat.mul_pos (Nat.pow_pos (Nat.succ_pos _)) (Nat.pow_pos (Nat.succ_pos _))
  refine Nat.le_of_mul_le_mul_left ?_ hpos
  calc (n + 9) ^ 2 * (n + 10) ^ 2 * ((n + 11) ^ 2 * (f + g))
      = (n + 11) ^ 2 * ((n + 10) ^ 2 * ((n + 9) ^ 2 * f) + (n + 9) ^ 2 * ((n + 10) ^ 2 * g)) := by
        ring
    _ ≤ (n + 11) ^ 2 * ((n + 10) ^ 2 * p + (n + 9) ^ 2 * (2 * p)) := by gcongr
    _ = (n + 11) ^ 2 * ((n + 10) ^ 2 + 2 * (n + 9) ^ 2) * p := by ring
    _ ≤ (n + 9) ^ 2 * (n + 10) ^ 2 * 4 * p := Nat.mul_le_mul_right p (square_growth n)
    _ = (n + 9) ^ 2 * (n + 10) ^ 2 * (4 * p) := by ring

lemma square_mul_fib_le (n : Nat) : (n + 9) ^ 2 * Nat.fib (n + 3) ≤ 2 ^ (n + 20) := by
  induction n using Nat.twoStepInduction with
  | zero | one => norm_num [Nat.fib]
  | more n h0 h1 =>
    have hfib : Nat.fib (n + 2 + 3) = Nat.fib (n + 3) + Nat.fib (n + 1 + 3) := Nat.fib_add_two
    have hp1 : 2 ^ (n + 1 + 20) = 2 * 2 ^ (n + 20) := by ring
    have hp2 : 2 ^ (n + 2 + 20) = 4 * 2 ^ (n + 20) := by ring
    rw [hp1] at h1
    rw [hfib, hp2]
    exact square_mul_add_le h0 h1

lemma Scale.period_le (k : Scale) : k.period ≤ (k.span + 9) * (k.top + 1) := by
  have hsplit : (k.span + 9) * (k.top + 1) = (k.span + 2) * (k.top + 1) + 7 * (k.top + 1) := by ring
  simp only [Scale.period, Scale.conjoining, Scale.comparing]
  omega

lemma mul_period_le_allowance {n : Nat} (h : r.phase + r.base ≤ n) :
    (r.phase + 1) * (Scale.mk r.base r.extent).period ≤ allowance n := by
  have hspan : r.extent ≤ r.phase := Nat.le_add_right _ _
  have hfib : Nat.fib (r.extent + 3) ≤ Nat.fib (r.phase + 3) := Nat.fib_mono (by omega)
  have hone : 1 ≤ Nat.fib (r.phase + 3) := Nat.fib_pos.mpr (by omega)
  have htop : (Scale.mk r.base r.extent).top + 1 ≤ 2 ^ r.base * Nat.fib (r.phase + 3) := by
    calc r.base * Nat.fib (r.extent + 3) + 1
        ≤ r.base * Nat.fib (r.phase + 3) + Nat.fib (r.phase + 3) := by gcongr
      _ = (r.base + 1) * Nat.fib (r.phase + 3) := (Nat.succ_mul _ _).symm
      _ ≤ 2 ^ r.base * Nat.fib (r.phase + 3) := Nat.mul_le_mul_right _ Nat.lt_two_pow_self
  calc (r.phase + 1) * (Scale.mk r.base r.extent).period
      ≤ (r.phase + 9) * ((r.phase + 9) * (2 ^ r.base * Nat.fib (r.phase + 3))) := by
        refine Nat.mul_le_mul (by omega) ((Scale.period_le _).trans ?_)
        exact Nat.mul_le_mul (by simpa using hspan) htop
    _ = 2 ^ r.base * ((r.phase + 9) ^ 2 * Nat.fib (r.phase + 3)) := by ring
    _ ≤ 2 ^ r.base * 2 ^ (r.phase + 20) := Nat.mul_le_mul_left _ (square_mul_fib_le _)
    _ = 2 ^ (r.base + (r.phase + 20)) := (Nat.pow_add _ _ _).symm
    _ ≤ 2 ^ (n + 20) := Nat.pow_le_pow_right (by omega) (by omega)

namespace Question

def constraints : Question → List Constraint
  | .normal c => [c]
  | .conj _ cs | .disj cs => cs
  | .entails _ a b => [a, b]

def IsPlain (q : Question) : Prop := ∀ c ∈ q.constraints, c.IsPlain

def size : Question → Nat
  | .normal c => c.size
  | .conj _ cs | .disj cs => sizeList cs
  | .entails _ a b => a.size + b.size

lemma sizeList_constraints (q : Question) : sizeList q.constraints = q.size := by
  cases q <;> simp [constraints, size, sizeList]

end Question

variable {k : Scale} {q : Question} {n : Nat}

lemma HasWeight.isPlain {w : Nat} (h : HasWeight r m c w) : c.IsPlain := by
  cases h with
  | plain h => exact h.isPlain
  | @joint cs h =>
    -- flatness does not matter here: one more of the height fits nested conjunctions
    have hfill : (conj cs).Fills r (m + 1) := fills_conj.mpr fun d hd => by
      split_ifs
      · exact ⟨Nat.succ_pos m, h d hd⟩
      · exact (h d hd).of_le (Nat.le_succ m)
    exact hfill.isPlain

lemma Ranked.isPlain (h : Ranked k q n) : q.IsPlain := by
  cases h with
  | normal _ _ hw => simpa [Question.IsPlain, Question.constraints] using hw.isPlain
  | conj hj => exact hj.plain
  | disj _ _ hf => exact fun c hc => (hf c hc).isPlain
  | entails _ _ _ ha hb =>
    simpa [Question.IsPlain, Question.constraints] using ⟨ha.isPlain, hb.isPlain⟩

theorem Question.IsPlain.exists_rank (h : q.IsPlain) :
    ∃ k n, Ranked k q n ∧ n < allowance q.size := by
  obtain ⟨hfree, hwell⟩ := isPlain_list h
  obtain ⟨r, ha, hr, hf⟩ := exists_room_list hfree hwell
  rw [Question.sizeList_constraints] at hr
  have hwithin : r.Within ⟨r.base, r.extent⟩ 0 := ⟨Nat.le_refl _, by simp [ha]⟩
  have hcap : r.cap ≤ (Scale.mk r.base r.extent).top := hwithin.weaken.cap_le
  have hbase := r.base_le_cap
  have hle := mul_period_le_allowance hr
  rw [Nat.succ_mul] at hle
  -- every question about these constraints is in the first phase
  suffices hs : ∃ x < (Scale.mk r.base r.extent).period,
      Ranked ⟨r.base, r.extent⟩ q (r.phase * (Scale.mk r.base r.extent).period + x) by
    obtain ⟨x, hx, hq⟩ := hs
    exact ⟨_, _, hq, by omega⟩
  cases q with
  | normal c =>
    have hw : HasWeight r r.base c _ := .plain (hf c (by simp [Question.constraints]))
    refine ⟨_, ?_, .normal hwithin hbase hw⟩
    have := hw.le
    simp only [Scale.period]
    omega
  | conj unroll cs =>
    exact ⟨_, joinRank_local_lt hwithin.weaken (Nat.le_refl _) (hbase.trans hcap),
      .conj (.of_fills hwithin.weaken (hbase.trans hcap) hf)⟩
  | disj cs =>
    refine ⟨_, ?_, .disj hwithin.weaken (hbase.trans hcap) hf⟩
    simp only [Scale.period, Scale.conjoining]
    omega
  | entails assumed a b =>
    refine ⟨_, ?_, .entails hwithin.weaken (hbase.trans hcap) (hbase.trans hcap)
      (hf a (by simp [Question.constraints])) (hf b (by simp [Question.constraints]))⟩
    have hbit := conjBit_le a
    have hbit' := conjBit_le b
    simp only [Scale.period, Scale.conjoining, Scale.comparing]
    omega

/-! ### The settled answers -/

namespace Answers

@[irreducible] def settled : Answers where
  normal := simplify
  conj unroll cs := conjunction (allowance (sizeList cs)) unroll cs
  disj cs := disjunction (allowance (sizeList cs)) cs
  entails assumed a b := Constraint.entails (allowance (a.size + b.size)) assumed a b

lemma settled_normal : settled.normal = simplify := by
  rw [settled]

lemma settled_agree_within (q : Question) : settled.Agree (within (allowance q.size)) q := by
  rw [settled]
  cases q <;> rfl

theorem after_agree_settled (hq : Ranked k q n) (hn : n < m) (l : Answers) :
    (l.after m).Agree settled q := by
  obtain ⟨k', n', hq', hn'⟩ := hq.isPlain.exists_rank
  have hwithin := settled_agree_within q
  rw [within_eq_after] at hwithin
  generalize allowance q.size = limit at *
  have hlong := after_agree_of_le hq hn (Nat.le_max_left m limit) l l
  have hshort := after_agree_of_le hq' hn' (Nat.le_max_right m limit) (within 0) l
  exact hlong.trans (hshort.symm.trans hwithin.symm)

theorem sound_settled (k : Scale) (n : Nat) : Sound k n settled where
  normal {r m w c} hr hm hw hn := by
    have heq : (settled.after n).normal c = settled.normal c :=
      after_agree_settled (.normal hr hm hw) hn settled
    exact heq ▸ (Sound.after settled n).normal hr hm hw hn
  conj {r m e h unroll cs} hj hn := by
    have heq : (settled.after n).conj unroll cs = settled.conj unroll cs :=
      after_agree_settled (.conj hj) hn settled
    exact heq ▸ (Sound.after settled n).conj hj hn
  disj {r m cs} hr hm hf hn := by
    have heq : (settled.after n).disj cs = settled.disj cs :=
      after_agree_settled (.disj hr hm hf) hn settled
    exact heq ▸ (Sound.after settled n).disj hr hm hf hn

theorem settled_step_agree (h : q.IsPlain) : settled.step.Agree settled q := by
  obtain ⟨k, n, hq, _⟩ := h.exists_rank
  have hstep : settled.step.Agree (settled.after n).step q := by
    refine step_agree fun q' ha => ?_
    obtain ⟨n', hn', hq'⟩ := (sound_settled k n).asks hq (Nat.le_refl n) ha
    exact (after_agree_settled hq' hn' settled).symm
  exact hstep.trans (after_agree_settled hq (Nat.lt_succ_self n) settled)

end Answers

section Rank

open scoped Classical

noncomputable def Question.rank (q : Question) : Nat :=
  if h : ∃ n k, Ranked k q n then Nat.find h else 0

lemma Ranked.rank_le (h : Ranked k q n) : q.rank ≤ n := by
  rw [Question.rank, dif_pos ⟨n, k, h⟩]
  exact Nat.find_min' _ ⟨k, h⟩

lemma Question.IsPlain.ranked (h : q.IsPlain) : ∃ k, Ranked k q q.rank := by
  obtain ⟨k, n, hq, _⟩ := h.exists_rank
  have hex : ∃ n k, Ranked k q n := ⟨n, k, hq⟩
  rw [Question.rank, dif_pos hex]
  exact Nat.find_spec hex

end Rank

lemma Question.IsPlain.asks {q' : Question} (h : q.IsPlain) (ha : Answers.settled.Asks q q') :
    q'.IsPlain ∧ q'.rank < q.rank := by
  obtain ⟨k, hq⟩ := h.ranked
  obtain ⟨n', hn', hq'⟩ := (Answers.sound_settled k _).asks hq (Nat.le_refl _) ha
  exact ⟨hq'.isPlain, Nat.lt_of_le_of_lt hq'.rank_le hn'⟩

/-! ### The operations -/

lemma IsPlain.branchesOf (h : c.IsPlain) : ∀ d ∈ branchesOf c, d.IsPlain := by
  cases c with
  | disj cs =>
    obtain ⟨r, _, _, hf⟩ := exists_room h
    exact fun d hd => ((fills_disj.mp hf).2 d hd).isPlain
  | _ => simpa only [Constraint.branchesOf, List.forall_mem_singleton] using h

lemma IsPlain.simplify (h : c.IsPlain) : c.simplify.IsPlain := by
  have hq : (Question.normal c).IsPlain := by
    simpa [Question.IsPlain, Question.constraints] using h
  obtain ⟨k, n, hq, _⟩ := hq.exists_rank
  rw [← Answers.settled_normal]
  cases hq with
  | normal hr hm hw =>
    exact ((Answers.sound_settled k _).normal hr hm hw (Nat.lt_succ_self _)).isPlain

lemma IsPlain.branches_eq (h : c.IsPlain) : c.branches = Constraint.branchesOf c.simplify := by
  have hs := h.simplify.isRecursionFree
  simp only [Constraint.branches]
  generalize c.simplify = d at *
  cases d with
  | fix body => simp [Constraint.isRecursionFree] at hs
  | _ => rfl

namespace Answers

def implies (l : Answers) (a b : Constraint) : Bool := l.entails [] (l.normal a) (l.normal b)

def unify (l : Answers) (a b : Constraint) : Constraint := l.normal (.conj [a, b])

def disjoint (l : Answers) (a b : Constraint) : Bool := (l.unify a b).isNever

def branches (l : Answers) (c : Constraint) : List Constraint :=
  match l.normal c with
  | .fix body => branchesOf (l.normal (unfold (.fix body)))
  | c => branchesOf c

def narrow (l : Answers) (union filter : Constraint) : Constraint :=
  l.normal (.disj ((l.branches union).filter fun b => !l.disjoint b filter))

def exclude (l : Answers) (union c : Constraint) : Constraint :=
  l.normal (.disj ((l.branches union).filter fun b => !l.implies b c))

/-- It comes to hold after enough steps, whatever the first answers, and then goes on to hold. -/
def Eventually (P : Answers → Prop) : Prop := ∃ n, ∀ m ≥ n, ∀ l : Answers, P (l.after m)

variable {P Q : Answers → Prop} {a b : Constraint}

lemma Eventually.and (hP : Eventually P) (hQ : Eventually Q) :
    Eventually fun l => P l ∧ Q l := by
  obtain ⟨n, hn⟩ := hP
  obtain ⟨n', hn'⟩ := hQ
  exact ⟨max n n', fun m hm l => ⟨hn m (by omega) l, hn' m (by omega) l⟩⟩

lemma Eventually.mono (hP : Eventually P) (h : ∀ l, P l → Q l) : Eventually Q :=
  hP.imp fun _ hn m hm l => h _ (hn m hm l)

lemma Eventually.forall_mem {P : Constraint → Answers → Prop} (h : ∀ c ∈ cs, Eventually (P c)) :
    Eventually fun l => ∀ c ∈ cs, P c l := by
  induction cs with
  | nil => exact ⟨0, by simp⟩
  | cons c cs ih =>
    rw [List.forall_mem_cons] at h
    exact (h.1.and (ih h.2)).mono fun l hl => List.forall_mem_cons.mpr hl

lemma eventually_agree (h : q.IsPlain) : Eventually (·.Agree settled q) := by
  obtain ⟨k, n, hq, _⟩ := h.exists_rank
  exact ⟨n + 1, fun m hm l => after_agree_settled hq hm l⟩

lemma eventually_normal (h : c.IsPlain) : Eventually (·.normal c = c.simplify) := by
  have hq : (Question.normal c).IsPlain := by
    simpa [Question.IsPlain, Question.constraints] using h
  simpa only [Agree, settled_normal] using eventually_agree hq

lemma eventually_implies (ha : a.IsPlain) (hb : b.IsPlain) :
    Eventually (·.implies a b = a.implies b) := by
  have hq : (Question.entails [] a.simplify b.simplify).IsPlain := by
    simpa [Question.IsPlain, Question.constraints] using ⟨ha.simplify, hb.simplify⟩
  refine ((eventually_normal ha).and ((eventually_normal hb).and (eventually_agree hq))).mono ?_
  rintro l ⟨hla, hlb, hl⟩
  rw [implies, hla, hlb, Constraint.implies]
  simpa only [Agree, settled] using hl

lemma eventually_unify (ha : a.IsPlain) (hb : b.IsPlain) :
    Eventually (·.unify a b = a.unify b) :=
  eventually_normal (isPlain_conj (by simpa using ⟨ha, hb⟩))

lemma eventually_disjoint (ha : a.IsPlain) (hb : b.IsPlain) :
    Eventually (·.disjoint a b = a.disjoint b) :=
  (eventually_unify ha hb).mono fun _ hl => congrArg isNever hl

lemma eventually_select {keep : Answers → Constraint → Bool} {keep' : Constraint → Bool}
    (ha : a.IsPlain) (hkeep : ∀ c : Constraint, c.IsPlain → Eventually (keep · c = keep' c)) :
    Eventually fun l => l.normal (.disj ((l.branches a).filter (keep l))) =
      Constraint.simplify (.disj (a.branches.filter keep')) := by
  have hbranch : ∀ c ∈ a.branches, c.IsPlain := ha.branches_eq ▸ ha.simplify.branchesOf
  have hout : (Constraint.disj (a.branches.filter keep')).IsPlain :=
    isPlain_disj fun c hc => hbranch c (List.mem_of_mem_filter hc)
  refine ((eventually_normal ha).and ((Eventually.forall_mem fun c hc =>
    hkeep c (hbranch c hc)).and (eventually_normal hout))).mono ?_
  rintro l ⟨hla, hl, hlo⟩
  have hbs : l.branches a = a.branches := by
    have hs := ha.simplify.isRecursionFree
    rw [ha.branches_eq, branches, hla]
    generalize a.simplify = d at *
    cases d with
    | fix body => simp [isRecursionFree] at hs
    | _ => rfl
  rw [hbs, List.filter_congr hl]
  exact hlo

lemma eventually_narrow (ha : a.IsPlain) (hb : b.IsPlain) :
    Eventually (·.narrow a b = a.narrow b) :=
  eventually_select ha fun _ hc => (eventually_disjoint hc hb).mono fun _ hl => congrArg not hl

lemma eventually_exclude (ha : a.IsPlain) (hb : b.IsPlain) :
    Eventually (·.exclude a b = a.exclude b) :=
  eventually_select ha fun _ hc => (eventually_implies hc hb).mono fun _ hl => congrArg not hl

end Answers

open Answers in
/-- Without recursion the algebra terminates. There is a measure that everything asked for an answer
lowers, and the answers to what is asked make the answer. Where the recursion is cut off deep enough
it does not matter what is answered there. -/
theorem algebra_terminates :
    (∃ measure : Question → Nat, ∀ q : Question, q.IsPlain →
      (∀ l : Answers, (∀ q', settled.Asks q q' → settled.Agree l q') → l.step.Agree settled q) ∧
      ∀ q', settled.Asks q q' → q'.IsPlain ∧ measure q' < measure q) ∧
    ∀ a b : Constraint, a.IsPlain → b.IsPlain → Eventually fun l =>
      l.normal a = a.simplify ∧ l.implies a b = a.implies b ∧ l.disjoint a b = a.disjoint b ∧
        l.unify a b = a.unify b ∧ l.narrow a b = a.narrow b ∧ l.exclude a b = a.exclude b := by
  refine ⟨⟨Question.rank, fun q hq => ⟨fun l hl => ?_, fun q' ha => hq.asks ha⟩⟩, ?_⟩
  · exact (step_agree hl).symm.trans (settled_step_agree hq)
  · intro a b ha hb
    exact (eventually_normal ha).and ((eventually_implies ha hb).and
      ((eventually_disjoint ha hb).and ((eventually_unify ha hb).and
        ((eventually_narrow ha hb).and (eventually_exclude ha hb)))))

theorem algebra_terminates_negations :
    let a : Constraint := .conj [.neg (.disj [.kind .string, .neg (.bvar 0)]),
      .field "f" (.neg (.neg (.disj [.kind .null, .elements .any])))]
    let b : Constraint := .neg (.conj [.var 1, .neg (.kind .object)])
    a.IsPlain ∧ b.IsPlain ∧ Answers.Eventually fun l => l.implies a b = a.implies b ∧
      l.narrow a b = a.narrow b := by
  intro a b
  have ha : a.IsPlain := ⟨by decide, by decide⟩
  have hb : b.IsPlain := ⟨by decide, by decide⟩
  exact ⟨ha, hb, (algebra_terminates.2 a b ha hb).mono fun l hl => ⟨hl.2.1, hl.2.2.2.2.1⟩⟩

end Stagewise.Constraint
