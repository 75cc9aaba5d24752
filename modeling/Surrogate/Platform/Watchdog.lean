import Mathlib.Data.List.Chain
import Surrogate.Daemon.Main
import Surrogate.Lib.CatchUp
import Surrogate.Lib.Gaps

/-!
# The pings that keep the daemon alive

Every pass before the stop looks at the clock. A ping answers a deadline, at most one a pass, and
the deadlines are a second apart. Whatever delays the passes, the pings number what one a pass can
answer of the deadlines that have passed, and two of them are never farther apart than a second and
a pass.
-/

namespace Surrogate.Platform.Watchdog

open Surrogate.Daemon
open Surrogate.Daemon.Main
open Surrogate.Lib
open Surrogate.Lib.CatchUp (follow)
open Surrogate.Lib.Gaps

def reads (looks : List Look) : List Int := looks.map Look.read

theorem length_reads (looks : List Look) : (reads looks).length = looks.length := List.length_map _

def pings (looks : List Look) : List Int := reads (looks.filter Look.pinged)

/-- The number of deadlines passed at `read`, the first of them at `first`. -/
def due (first read : Int) : ℕ := ((read - first) / nsPerS + 1).toNat

theorem lt_due_iff (first read : Int) (k : ℕ) : k < due first read ↔ first + k * nsPerS ≤ read := by
  have hdiv := Int.le_ediv_iff_mul_le (a := k) (b := read - first) (c := nsPerS) (by decide)
  rw [due]
  omega

theorem due_mono (first : Int) {r r' : Int} (h : r ≤ r') : due first r ≤ due first r' := by
  refine Nat.le_of_not_lt fun hlt => ?_
  have hpassed := (lt_due_iff first r (due first r')).1 hlt
  exact absurd ((lt_due_iff first r' (due first r')).2 (hpassed.trans h)) (Nat.lt_irrefl _)

/-- In a second no more than one deadline passes. -/
theorem due_le_succ (first : Int) {r r' : Int} (h : r' ≤ r + nsPerS) :
    due first r' ≤ due first r + 1 := by
  refine Nat.le_of_not_lt fun hlt => ?_
  have hpassed := (lt_due_iff first r' (due first r + 1)).1 hlt
  have hnot := mt (lt_due_iff first r (due first r)).2 (Nat.lt_irrefl _)
  push_cast at hpassed
  rw [Int.add_mul] at hpassed
  omega

theorem due_of_lt {first read : Int} (h : read < first) : due first read = 0 := by
  refine Nat.eq_zero_of_not_pos fun hpos => ?_
  have hpassed := (lt_due_iff first read 0).1 hpos
  simp only [Nat.cast_zero, Int.zero_mul] at hpassed
  omega

/-! ## The loop -/

theorem idle_stopped {now next : Int} {u : Pass} {us : List Pass} (h : u.stopRequested = true) :
    idle now next (u :: us) = [] := by
  rw [idle, if_pos h]

theorem idle_goes {now next : Int} {u : Pass} {us : List Pass} (h : u.stopRequested = false) :
    idle now next (u :: us) =
      ⟨now + kIdleSleep + u.oversleep, decide (next ≤ now + kIdleSleep + u.oversleep)⟩ ::
        idle (now + kIdleSleep + u.oversleep + u.rest)
          (if next ≤ now + kIdleSleep + u.oversleep then next + nsPerS else next) us := by
  rw [idle, if_neg (by rw [h]; decide)]
  dsimp only
  split
  · next hdue => rw [decide_eq_true hdue]
  · next hdue => rw [decide_eq_false hdue]

theorem unstopped_stopped {u : Pass} {us : List Pass} (h : u.stopRequested = true) :
    unstopped (u :: us) = [] := List.takeWhile_cons_of_neg (by simp [h])

theorem unstopped_goes {u : Pass} {us : List Pass} (h : u.stopRequested = false) :
    unstopped (u :: us) = u :: unstopped us := List.takeWhile_cons_of_pos (by simp [h])

/-- A pass looks once it has slept. -/
theorem looks_paced (now next r : Int) (hr : r ≤ now) (us : List Pass) :
    List.Forall₂ (fun g u => kIdleSleep + (u.oversleep : Int) ≤ g)
      (gaps r (reads (idle now next us))) (unstopped us) := by
  induction us generalizing now next r with
  | nil => exact .nil
  | cons u us ih =>
    cases hstop : u.stopRequested with
    | true =>
      rw [idle_stopped hstop, unstopped_stopped hstop]
      exact .nil
    | false =>
      rw [idle_goes hstop, unstopped_goes hstop, reads, List.map_cons, gaps_cons]
      refine .cons ?_ (ih _ _ _ ?_)
      · dsimp only
        omega
      · dsimp only
        omega

theorem idle_sorted (now next : Int) (us : List Pass) :
    (now :: reads (idle now next us)).Pairwise (· ≤ ·) := by
  induction us generalizing now next with
  | nil => exact List.pairwise_singleton _ _
  | cons u us ih =>
    cases hstop : u.stopRequested with
    | true =>
      rw [idle_stopped hstop]
      exact List.pairwise_singleton _ _
    | false =>
      have hrest := ih (now + kIdleSleep + u.oversleep + u.rest)
        (if next ≤ now + kIdleSleep + u.oversleep then next + nsPerS else next)
      have hsleep : 0 ≤ kIdleSleep := by decide
      rw [idle_goes hstop, reads, List.map_cons, ← reads]
      rw [List.pairwise_cons] at hrest ⊢
      refine ⟨List.forall_mem_cons.2 ⟨?_, fun r hr => ?_⟩,
        List.pairwise_cons.2 ⟨fun r hr => ?_, hrest.2⟩⟩
      · show now ≤ now + kIdleSleep + u.oversleep
        omega
      · have hle := hrest.1 r hr
        omega
      · have hle := hrest.1 r hr
        dsimp only
        omega

/-- The pings follow the deadlines, one a pass at most. -/
theorem length_pings (first now next : Int) (p : ℕ) (hnext : next = first + p * nsPerS)
    (us : List Pass) :
    p + (pings (idle now next us)).length =
      follow p ((reads (idle now next us)).map (due first)) := by
  induction us generalizing now next p with
  | nil => rfl
  | cons u us ih =>
    cases hstop : u.stopRequested with
    | true =>
      rw [idle_stopped hstop]
      rfl
    | false =>
      rw [idle_goes hstop, pings, reads, reads, List.map_cons, List.map_cons, CatchUp.follow_cons,
        List.filter_cons]
      have hiff := lt_due_iff first (now + kIdleSleep + u.oversleep) p
      rw [← hnext] at hiff
      by_cases hdue : next ≤ now + kIdleSleep + u.oversleep
      · rw [CatchUp.step, if_pos (hiff.2 hdue)]
        simp only [hdue, decide_true, if_true, List.map_cons, List.length_cons]
        have hrest := ih (now + kIdleSleep + u.oversleep + u.rest) (next + nsPerS) (p + 1)
          (by push_cast; rw [hnext, Int.add_mul]; omega)
        rw [pings, reads, reads] at hrest
        omega
      · rw [CatchUp.step, if_neg (mt hiff.1 hdue)]
        simp only [hdue, decide_false, if_false, Bool.false_eq_true]
        exact ih _ _ p hnext

/-- `r` is the look before and `l` the ping before: either the same, or no deadline was due. -/
theorem pings_regular {bound : Int} (now next l r : Int) (hnext : next ≤ l + nsPerS) (hl : l ≤ r)
    (hnow : r ≤ now) (hlast : r = l ∨ r < next) (us : List Pass)
    (hbound : ∀ g ∈ gaps r (reads (idle now next us)), g ≤ bound) :
    (∀ g ∈ gaps l (pings (idle now next us)), g ≤ nsPerS + bound) ∧
      (reads (idle now next us)).getLastD r - (pings (idle now next us)).getLastD l ≤ nsPerS := by
  have hfresh : r - l ≤ nsPerS := by
    rcases hlast with rfl | hlt
    · rw [Int.sub_self]
      decide
    · omega
  induction us generalizing now next l r with
  | nil => exact ⟨nofun, hfresh⟩
  | cons u us ih =>
    cases hstop : u.stopRequested with
    | true =>
      rw [idle_stopped hstop]
      exact ⟨nofun, hfresh⟩
    | false =>
      rw [idle_goes hstop, reads, List.map_cons, gaps_cons, List.forall_mem_cons] at hbound
      rw [idle_goes hstop, pings, reads, reads, List.map_cons, List.getLastD_cons, List.filter_cons]
      obtain ⟨hgap, hrest⟩ := hbound
      dsimp only at hgap hrest ⊢
      have hsleep : 0 ≤ kIdleSleep := by decide
      by_cases hdue : next ≤ now + kIdleSleep + u.oversleep
      · rw [if_pos hdue] at hrest
        simp only [hdue, decide_true, if_true, List.map_cons, gaps_cons, List.getLastD_cons]
        obtain ⟨hlater, hlate⟩ := ih _ (next + nsPerS) (now + kIdleSleep + u.oversleep)
          (now + kIdleSleep + u.oversleep) (by omega) (Int.le_refl _) (by omega) (Or.inl rfl) hrest
          (by rw [Int.sub_self]; decide)
        refine ⟨List.forall_mem_cons.2 ⟨?_, hlater⟩, hlate⟩
        omega
      · rw [if_neg hdue] at hrest
        simp only [hdue, decide_false, if_false, Bool.false_eq_true]
        exact ih _ next l _ hnext (by omega) (by omega) (Or.inr (not_le.1 hdue)) hrest (by omega)

/-! ## What systemd gets -/

/-- The looks of a run that are no more than `bound` apart. -/
structure KeepsAlive (start bound : Int) (passes : List Pass) (looks : List Look) : Prop where
  every_pass : looks.length = (unstopped passes).length
  paced : List.Forall₂ (fun g u => kIdleSleep + (u.oversleep : Int) ≤ g)
    (gaps start (reads looks)) (unstopped passes)
  owed : (pings looks).length ≤ due (start + nsPerS) ((reads looks).getLastD start)
  least : ∀ pre look post, looks = pre ++ look :: post →
    (pings looks).length ≤ due (start + nsPerS) look.read + post.length
  attained : (pings looks).length = looks.length ∨ ∃ pre look post, looks = pre ++ look :: post ∧
    (pings looks).length = due (start + nsPerS) look.read + post.length
  caught_up : bound ≤ nsPerS →
    (pings looks).length = due (start + nsPerS) ((reads looks).getLastD start)
  regular : ∀ g ∈ gaps start (pings looks), g ≤ nsPerS + bound
  fresh : (reads looks).getLastD start - (pings looks).getLastD start ≤ nsPerS

/-- For every run of the loop: a look for each pass before the stop, no ping without a deadline
that has passed, as many as one a pass can answer, all of them while a pass takes no more than a
second, and never a second and a pass without one. -/
theorem watchdog_kept (start : Int) (passes : List Pass) (bound : Int)
    (hbound : ∀ g ∈ gaps start (reads (idleLoop start passes)), g ≤ bound) :
    KeepsAlive start bound passes (idleLoop start passes) := by
  have hpaced := looks_paced start (start + nsPerS) start (Int.le_refl _) passes
  have hsorted := idle_sorted start (start + nsPerS) passes
  have hcount := length_pings (start + nsPerS) start (start + nsPerS) 0 (by simp) passes
  have hregular := pings_regular start (start + nsPerS) start start (Int.le_refl _) (Int.le_refl _)
    (Int.le_refl _) (Or.inl rfl) passes hbound
  rw [Nat.zero_add] at hcount
  have hzero : due (start + nsPerS) start = 0 := due_of_lt (by rw [nsPerS]; omega)
  rw [← idleLoop] at hpaced hsorted hcount hregular
  generalize idleLoop start passes = looks at *
  have htargets : (0 :: (reads looks).map (due (start + nsPerS))).Pairwise (· ≤ ·) := by
    rw [← hzero, ← List.map_cons]
    exact hsorted.map _ fun _ _ => due_mono _
  have hlast : ((reads looks).map (due (start + nsPerS))).getLastD 0 =
      due (start + nsPerS) ((reads looks).getLastD start) := by
    rw [← hzero, List.getLastD_map]
  refine ⟨?_, hpaced, ?_, fun pre look post heq => ?_, ?_, fun hsecond => ?_, hregular.1,
    hregular.2⟩
  · rw [← hpaced.length_eq, length_gaps, length_reads]
  · rw [hcount, ← hlast]
    exact CatchUp.follow_le_last htargets
  · rw [hcount]
    have hsplit : (reads looks).map (due (start + nsPerS)) =
        (reads pre).map (due (start + nsPerS)) ++
          due (start + nsPerS) look.read :: (reads post).map (due (start + nsPerS)) := by
      rw [heq, reads, List.map_append, List.map_cons, List.map_append, List.map_cons, reads, reads]
    have hle := CatchUp.follow_le_of_split htargets hsplit
    rwa [List.length_map, length_reads] at hle
  · rw [hcount]
    rcases CatchUp.follow_attained htargets with hall | ⟨pre, d, post, heq, hd⟩
    · exact Or.inl (by rw [hall, List.length_map, length_reads, Nat.zero_add])
    · rw [reads, List.map_map, List.map_eq_append_iff] at heq
      obtain ⟨pre', rest, rfl, -, hrest⟩ := heq
      obtain ⟨look, post', rfl, rfl, rfl⟩ := List.map_eq_cons_iff.1 hrest
      exact Or.inr ⟨pre', look, post', rfl, by rw [hd, List.length_map]; rfl⟩
  · rw [hcount, ← hlast]
    refine CatchUp.follow_eq_last htargets ?_
    rw [← hzero, ← List.map_cons]
    refine List.isChain_map_of_isChain _ (fun r r' h => due_le_succ _ ?_)
      (isChain_of_gaps_le hbound)
    omega

/-- A pass of 3.2 s and four short ones. -/
theorem watchdog_kept_stalled :
    let looks := idleLoop 0 [{ oversleep := 3100000000 }, {}, {}, {}, {}]
    looks.length = 5 ∧ (pings looks).length = 3 ∧ ∀ g ∈ gaps 0 (pings looks), g ≤ 4200000000 := by
  have h := watchdog_kept 0 [{ oversleep := 3100000000 }, {}, {}, {}, {}] 3200000000 (by decide)
  exact ⟨h.every_pass, by decide, h.regular⟩

end Surrogate.Platform.Watchdog
