import Surrogate.Cadence.Milliseconds
import Surrogate.Lib.Ring
import Surrogate.Lib.Runs
import Mathlib.Data.List.GetD

/-!
# The statistics, by their plain definition

A history mixes recordings and queries. Whatever the mix, a query answers from the sorted
window of the last recordings: the ring holds them in some order, and the sorted copy is
either current or thrown away.
-/

namespace Surrogate.Cadence

open Surrogate.Daemon
open Surrogate.Daemon.CadenceTracker (kCapacity)
open Surrogate.Lib

inductive Query where
  | p50Ms
  | p99Ms
  | p999Ms
  | maxMs
  deriving DecidableEq, Repr

inductive Call where
  | recordIntervalUs (us : Int64)
  | query (q : Query)
  deriving DecidableEq, Repr

def ask (t : CadenceTracker) : Query → CadenceTracker × Float
  | .p50Ms => t.p50Ms
  | .p99Ms => t.p99Ms
  | .p999Ms => t.p999Ms
  | .maxMs => t.maxMs

def step (t : CadenceTracker) : Call → CadenceTracker
  | .recordIntervalUs us => t.recordIntervalUs us
  | .query q => (ask t q).1

/-- The tracker after a history. -/
def after (cs : List Call) : CadenceTracker := Runs.exec step {} cs

def answer (cs : List Call) (q : Query) : Float := (ask (after cs) q).2

/-! ## The plain definition -/

def recorded (cs : List Call) : List Int64 :=
  cs.filterMap fun
    | .recordIntervalUs us => some us
    | .query _ => none

/-- The last recordings. -/
def window (xs : List Int64) : List Int64 := xs.rtake kCapacity

/-- The place of a statistic among `n` sorted samples. -/
def rank (n : ℕ) : Query → ℕ
  | .p50Ms => min (n / 2) (n - 1)
  | .p99Ms => min (99 * n / 100) (n - 1)
  | .p999Ms => min (999 * n / 1000) (n - 1)
  | .maxMs => n - 1

/-- The sample of that rank in milliseconds; 0 when there is none. -/
def statistic (xs : List Int64) (q : Query) : Float :=
  let w := ascending (window xs)
  (w[rank w.length q]?).elim 0.0 inMs

/-! ## Which histories the write counter can follow -/

/-- A number of writes that leaves a 64-bit counter where it was is no write. -/
def Unaliased (n : ℕ) : Prop := 2 ^ 64 ∣ n → n = 0

instance : DecidablePred Unaliased := fun _ => inferInstanceAs (Decidable (_ → _))

/-- No query, and not the end, comes a nonzero multiple of `2 ^ 64` recordings after the query
before it or the start; `n` recordings are already waiting. -/
def TimelyFrom : ℕ → List Call → Prop
  | n, [] => Unaliased n
  | n, .recordIntervalUs _ :: cs => TimelyFrom (n + 1) cs
  | n, .query _ :: cs => Unaliased n ∧ TimelyFrom 0 cs

def Timely (cs : List Call) : Prop := TimelyFrom 0 cs

instance decidableTimelyFrom : ∀ n cs, Decidable (TimelyFrom n cs)
  | n, [] => inferInstanceAs (Decidable (Unaliased n))
  | n, .recordIntervalUs _ :: cs => decidableTimelyFrom (n + 1) cs
  | _, .query _ :: cs =>
    have : Decidable (TimelyFrom 0 cs) := decidableTimelyFrom 0 cs
    inferInstanceAs (Decidable (_ ∧ _))

instance : DecidablePred Timely := fun cs => decidableTimelyFrom 0 cs

/-! ## The tracker follows the history -/

/-- After `xs` was recorded, the last `n` of it since the last query. -/
structure Tracks (t : CadenceTracker) (xs : List Int64) (n : ℕ) : Prop where
  ring : Ring.Follows (List.replicate kCapacity 0) t.samplesUs t.next xs
  count_eq : t.count = min xs.length kCapacity
  unread_le : n ≤ xs.length
  epoch_eq : t.epoch = UInt64.ofNat xs.length
  cached_eq : t.cachedEpoch = UInt64.ofNat (xs.length - n)
  sorted_eq : n = 0 → t.sortedCache.take t.count = ascending (window xs)

theorem tracks_start : Tracks {} [] 0 where
  ring := Ring.follows_nil _
  count_eq := rfl
  unread_le := Nat.le_refl 0
  epoch_eq := rfl
  cached_eq := rfl
  sorted_eq _ := rfl

theorem ofNat_sub_eq_iff {m n : ℕ} (h : n ≤ m) :
    UInt64.ofNat (m - n) = UInt64.ofNat m ↔ 2 ^ 64 ∣ n := by
  rw [← UInt64.toNat_inj, UInt64.toNat_ofNat', UInt64.toNat_ofNat']
  omega

namespace Tracks

variable {t : CadenceTracker} {xs : List Int64} {n : ℕ}

theorem record (h : Tracks t xs n) (us : Int64) :
    Tracks (t.recordIntervalUs us) (xs ++ [us]) (n + 1) := by
  have hlen : (xs ++ [us]).length = xs.length + 1 := by simp
  refine ⟨?_, ?_, by rw [hlen]; exact Nat.succ_le_succ h.unread_le, ?_, ?_,
    fun h0 => absurd h0 (Nat.succ_ne_zero n)⟩
  · have hring := h.ring.push (by rw [List.length_replicate]; decide) us
    rw [List.length_replicate] at hring
    exact hring
  · simp only [CadenceTracker.recordIntervalUs, h.count_eq, hlen]
    split <;> omega
  · simp only [CadenceTracker.recordIntervalUs, h.epoch_eq, hlen, UInt64.ofNat_add]
    rfl
  · simp only [CadenceTracker.recordIntervalUs, h.cached_eq, hlen, Nat.add_sub_add_right]

theorem count_eq_zero (h : Tracks t xs n) : t.count = 0 ↔ xs = [] := by
  rw [h.count_eq, ← List.length_eq_zero_iff]
  have : 0 < kCapacity := by decide
  omega

/-- The cells in use, sorted, are the sorted window. -/
theorem ascending_cells (h : Tracks t xs n) :
    ascending (t.samplesUs.take t.count) = ascending (window xs) := by
  have hperm := h.ring.perm_rtake
  rw [List.length_replicate, ← h.count_eq] at hperm
  exact ascending_congr hperm

theorem refresh (h : Tracks t xs n) (hn : Unaliased n) : Tracks t.refreshSorted xs 0 := by
  unfold CadenceTracker.refreshSorted
  split
  · next hcached =>
    rw [h.cached_eq, h.epoch_eq, ofNat_sub_eq_iff h.unread_le] at hcached
    obtain rfl := hn hcached
    exact h
  · refine ⟨h.ring, h.count_eq, Nat.zero_le _, h.epoch_eq, h.epoch_eq, fun _ => ?_⟩
    have hlen : (ascending (t.samplesUs.take t.count)).length = t.count := by
      rw [length_ascending, List.length_take, h.ring.length_eq, List.length_replicate,
        h.count_eq]
      omega
    rw [← h.ascending_cells]
    exact List.take_left' hlen

theorem length_window (h : Tracks t xs n) : (ascending (window xs)).length = t.count := by
  rw [length_ascending, window, List.rtake, List.length_drop, h.count_eq]
  omega

/-- What a refreshed cache is read for. -/
theorem read (h : Tracks t xs 0) {i : ℕ} (hi : i < t.count) :
    toDouble (t.sortedCache.getD i 0) / 1000.0 =
      ((ascending (window xs))[i]?).elim 0.0 inMs := by
  have hget : (t.sortedCache.take t.count)[i]? = t.sortedCache[i]? := List.getElem?_take_of_lt hi
  have hlen : i < (ascending (window xs)).length := by rw [h.length_window]; exact hi
  rw [List.getD_eq_getElem?_getD, ← hget, h.sorted_eq rfl, List.getElem?_eq_getElem hlen]
  rfl

theorem refresh_count_pos (h : Tracks t xs n) (hn : Unaliased n) (h0 : t.count ≠ 0) :
    0 < t.refreshSorted.count := by
  rw [(h.refresh hn).count_eq, ← h.count_eq]
  exact Nat.pos_of_ne_zero h0

/-- Before the first recording there is nothing to refresh. -/
theorem empty (h : Tracks t xs n) (h0 : t.count = 0) (q : Query) :
    Tracks t xs 0 ∧ 0.0 = statistic xs q := by
  obtain rfl := h.count_eq_zero.1 h0
  obtain rfl : n = 0 := Nat.le_zero.1 h.unread_le
  exact ⟨h, by cases q <;> rfl⟩

theorem statistic_eq (h : Tracks t xs 0) {i : ℕ} {q : Query} (hi : i = rank t.count q)
    (hlt : i < t.count) :
    toDouble (t.sortedCache.getD i 0) / 1000.0 = statistic xs q := by
  rw [h.read hlt, hi, statistic, h.length_window]

theorem percentile (h : Tracks t xs n) (hn : Unaliased n) {p : Float} {floor : ℕ → ℕ} {q : Query}
    (hindex : ∀ {m : ℕ}, 0 < m → m ≤ kCapacity →
      (p * m.toUInt64.toFloat).toUInt64.toNat = floor m)
    (hrank : ∀ m, rank m q = min (floor m) (m - 1)) :
    Tracks (t.percentileMs p).1 xs 0 ∧ (t.percentileMs p).2 = statistic xs q := by
  unfold CadenceTracker.percentileMs
  split
  · next h0 => exact h.empty h0 q
  · next h0 =>
    have hr := h.refresh hn
    have hpos := h.refresh_count_pos hn h0
    have hle : t.refreshSorted.count ≤ kCapacity := by
      rw [hr.count_eq]
      exact Nat.min_le_right _ _
    refine ⟨hr, ?_⟩
    simp only [hindex hpos hle]
    refine hr.statistic_eq ?_ ?_
    · rw [hrank]
      split <;> omega
    · split <;> omega

theorem maximum (h : Tracks t xs n) (hn : Unaliased n) :
    Tracks t.maxMs.1 xs 0 ∧ t.maxMs.2 = statistic xs .maxMs := by
  unfold CadenceTracker.maxMs
  split
  · next h0 => exact h.empty h0 .maxMs
  · next h0 =>
    have hpos := h.refresh_count_pos hn h0
    exact ⟨h.refresh hn, (h.refresh hn).statistic_eq rfl (by omega)⟩

/-- One query: the tracker still follows the history, and the answer is the plain one. -/
theorem ask_spec (h : Tracks t xs n) (hn : Unaliased n) (q : Query) :
    Tracks (ask t q).1 xs 0 ∧ (ask t q).2 = statistic xs q := by
  cases q with
  | p50Ms =>
    exact h.percentile hn (index_eq hasOrdinal_half (by decide) truncProduct_half) fun _ => rfl
  | p99Ms =>
    exact h.percentile hn (index_eq hasOrdinal_p99 (by decide) truncProduct_p99) fun _ => rfl
  | p999Ms =>
    exact h.percentile hn (index_eq hasOrdinal_p999 (by decide) truncProduct_p999) fun _ => rfl
  | maxMs => exact h.maximum hn

end Tracks

theorem tracks_exec {t : CadenceTracker} {xs : List Int64} {n : ℕ} (h : Tracks t xs n)
    {cs : List Call} (ht : TimelyFrom n cs) :
    ∃ m, Tracks (Runs.exec step t cs) (xs ++ recorded cs) m ∧ Unaliased m := by
  induction cs generalizing t xs n with
  | nil => exact ⟨n, by simpa [recorded] using h, ht⟩
  | cons c cs ih =>
    cases c with
    | recordIntervalUs us =>
      have hrest := ih (h.record us) ht
      rwa [List.append_assoc] at hrest
    | query q => exact ih (h.ask_spec ht.1 q).1 ht.2

theorem tracks_after {cs : List Call} (h : Timely cs) :
    ∃ m, Tracks (after cs) (recorded cs) m ∧ Unaliased m := tracks_exec tracks_start h

theorem answer_eq {cs : List Call} (h : Timely cs) (q : Query) :
    answer cs q = statistic (recorded cs) q := by
  obtain ⟨m, htracks, hm⟩ := tracks_after h
  exact (htracks.ask_spec hm q).2

/-! ## The statistics against each other -/

theorem rank_lt {n : ℕ} (h : 0 < n) (q : Query) : rank n q < n := by
  cases q <;> simp only [rank] <;> omega

theorem statistic_congr {xs ys : List Int64} (h : (window xs).Perm (window ys)) (q : Query) :
    statistic xs q = statistic ys q := by
  rw [statistic, statistic, ascending_congr h]

theorem statistic_le (xs : List Int64) {q q' : Query} (h : ∀ n, rank n q ≤ rank n q') :
    statistic xs q ≤ statistic xs q' := by
  unfold statistic
  have hsorted := ascending_pairwise (window xs)
  generalize ascending (window xs) = w at hsorted ⊢
  obtain rfl | hne := eq_or_ne w []
  · exact (by decide +kernel : (0.0 : Float) ≤ 0.0)
  · have hpos := List.length_pos_iff.2 hne
    simp only [List.getElem?_eq_getElem (rank_lt hpos q), Option.elim_some,
      List.getElem?_eq_getElem (rank_lt hpos q')]
    obtain heq | hlt := (h w.length).eq_or_lt
    · simp only [heq]
      exact inMs_mono (Int64.le_refl _)
    · exact inMs_mono (List.pairwise_iff_getElem.1 hsorted _ _ _ _ hlt)

theorem recorded_insert (pre post : List Call) (q : Query) :
    recorded (pre ++ .query q :: post) = recorded (pre ++ post) := by
  simp [recorded]

/-- Every answer is the plain statistic of what was recorded. So it depends on the multiset of
the window alone, a query put anywhere into the history leaves it as it was, and the
percentiles are in order. -/
theorem answers_plain (cs : List Call) (h : Timely cs) :
    (∀ q, answer cs q = statistic (recorded cs) q) ∧
    (∀ ds, Timely ds → (window (recorded ds)).Perm (window (recorded cs)) →
      ∀ q, answer ds q = answer cs q) ∧
    (∀ pre q post, cs = pre ++ post → Timely (pre ++ .query q :: post) →
      ∀ q', answer (pre ++ .query q :: post) q' = answer cs q') ∧
    answer cs .p50Ms ≤ answer cs .p99Ms ∧ answer cs .p99Ms ≤ answer cs .p999Ms ∧
    answer cs .p999Ms ≤ answer cs .maxMs := by
  refine ⟨answer_eq h, ?_, ?_, ?_, ?_, ?_⟩
  · intro ds hds hperm q
    rw [answer_eq hds, answer_eq h, statistic_congr hperm]
  · intro pre q post hcs hins q'
    rw [answer_eq hins, answer_eq h, hcs, recorded_insert]
  · rw [answer_eq h, answer_eq h]
    exact statistic_le _ fun n => by simp only [rank]; omega
  · rw [answer_eq h, answer_eq h]
    exact statistic_le _ fun n => by simp only [rank]; omega
  · rw [answer_eq h, answer_eq h]
    exact statistic_le _ fun n => by simp only [rank]; omega

theorem answers_plain_slow_last :
    let cs : List Call := [.recordIntervalUs 5000, .query .p99Ms, .recordIntervalUs 50000]
    (∀ q, answer cs q = statistic [5000, 50000] q) ∧ answer cs .p50Ms ≤ answer cs .p99Ms :=
  have h := answers_plain [.recordIntervalUs 5000, .query .p99Ms, .recordIntervalUs 50000]
    (by decide)
  ⟨h.1, h.2.2.2.1⟩

/-! ## The counter wraps -/

theorem sortedCache_records (n : ℕ) (us : Int64) :
    (after (List.replicate n (.recordIntervalUs us))).sortedCache =
      List.replicate kCapacity 0 := by
  induction n with
  | zero => rfl
  | succ n ih =>
    rw [after, List.replicate_succ', Runs.exec_snoc]
    exact ih

theorem tracks_records (n : ℕ) (us : Int64) :
    Tracks (after (List.replicate n (.recordIntervalUs us))) (List.replicate n us) n := by
  induction n with
  | zero => exact tracks_start
  | succ n ih =>
    have h := ih.record us
    rw [after, List.replicate_succ', Runs.exec_snoc]
    rwa [← List.replicate_succ'] at h

theorem recorded_replicate (n : ℕ) (us : Int64) :
    recorded (List.replicate n (.recordIntervalUs us)) = List.replicate n us :=
  List.filterMap_replicate_of_some rfl

/-- An initial cache that passes for current answers 0. -/
theorem ask_zeros {t : CadenceTracker} (hcached : t.cachedEpoch = t.epoch)
    (hzero : t.sortedCache = List.replicate kCapacity 0) (q : Query) : ask t q = (t, 0.0) := by
  have hms : toDouble 0 / 1000.0 = 0.0 := by decide +kernel
  have hpercentile : ∀ p, t.percentileMs p = (t, 0.0) := fun p => by
    simp only [CadenceTracker.percentileMs, CadenceTracker.refreshSorted, if_pos hcached, hzero,
      List.getD_eq_getElem?_getD, List.getElem?_getD_replicate_default_eq, hms, ite_self]
  cases q with
  | p50Ms => exact hpercentile 0.50
  | p99Ms => exact hpercentile 0.99
  | p999Ms => exact hpercentile 0.999
  | maxMs =>
    simp only [ask, CadenceTracker.maxMs, CadenceTracker.refreshSorted, if_pos hcached, hzero,
      List.getD_eq_getElem?_getD, List.getElem?_getD_replicate_default_eq, hms, ite_self]

/-- After a multiple of `2 ^ 64` recordings the first queries read the initial cache. -/
theorem ask_aliased {n : ℕ} (hn : 2 ^ 64 ∣ n) (us : Int64) (q : Query) :
    ask (after (List.replicate n (.recordIntervalUs us))) q =
      (after (List.replicate n (.recordIntervalUs us)), 0.0) := by
  have h := tracks_records n us
  refine ask_zeros ?_ (sortedCache_records n us) q
  rw [h.cached_eq, h.epoch_eq, List.length_replicate, ofNat_sub_eq_iff (Nat.le_refl n)]
  exact hn

theorem ascending_replicate (n : ℕ) (us : Int64) :
    ascending (List.replicate n us) = List.replicate n us :=
  (List.pairwise_replicate.2 (Or.inr (Int64.le_refl us))).insertionSort_eq

theorem statistic_replicate {n : ℕ} (hn : kCapacity ≤ n) (us : Int64) (q : Query) :
    statistic (List.replicate n us) q = inMs us := by
  have hwindow : window (List.replicate n us) = List.replicate kCapacity us := by
    rw [window, List.rtake, List.drop_replicate, List.length_replicate, Nat.sub_sub_self hn]
  have hlt := rank_lt (n := kCapacity) (by decide) q
  rw [statistic, hwindow, ascending_replicate, List.length_replicate,
    List.getElem?_replicate_of_lt hlt]
  rfl

theorem maxMs_stale :
    answer (List.replicate (2 ^ 64) (.recordIntervalUs 1000)) .maxMs ≠
      statistic (recorded (List.replicate (2 ^ 64) (.recordIntervalUs 1000))) .maxMs := by
  have hone : (0.0 : Float) ≠ inMs 1000 := by decide +kernel
  rw [answer, ask_aliased (Nat.dvd_refl _), recorded_replicate, statistic_replicate (by decide)]
  exact hone

end Surrogate.Cadence
