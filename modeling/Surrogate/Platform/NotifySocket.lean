import Mathlib.Data.List.TakeDrop
import Surrogate.Daemon.LinuxRuntime

/-!
# The address of the notify socket

A path ends at its first NUL, but a name in the abstract namespace is every byte that the
address length covers. The constant length therefore names the socket of a path that fits,
and adds NULs to every abstract name; a name that does not fit is cut off.
-/

namespace Surrogate.Platform.NotifySocket

open Surrogate.Daemon.LinuxRuntime

/-- What an address of the family `AF_UNIX` denotes. -/
inductive Address where
  | unnamed
  | filesystem (path : List UInt8)
  | abstract (name : List UInt8)
  deriving DecidableEq, Repr

/-- The address in the first `addrLen` bytes of a `sockaddr_un`. -/
def denotes (addr : SockaddrUn) (addrLen : Nat) : Address :=
  match addr.sunPath.take (addrLen - sunPathOffset) with
  | [] => .unnamed
  | b :: name => if b = 0 then .abstract name else .filesystem ((b :: name).takeWhile (· ≠ 0))

/-- The socket that a value of `NOTIFY_SOCKET` names. -/
def named (sockPath : List UInt8) : Address :=
  if sockPath.head? = some atSign then .abstract (sockPath.drop 1) else .filesystem sockPath

/-- Nothing is sent to another socket than the named one, and where the name fits into a path the
datagram is sent to it. -/
structure Addresses (sockPath payload : List UInt8) : Prop where
  sent : sockPath.length < sunPathSize → ∃ d, notifyRaw (some sockPath) true payload = some d
  named : ∀ opens d, notifyRaw (some sockPath) opens payload = some d →
    denotes d.addr d.addrLen = named sockPath

theorem denotes_whole (addr : SockaddrUn) :
    denotes addr (sunPathOffset + sunPathSize) =
      match addr.sunPath with
      | [] => .unnamed
      | b :: name =>
        if b = 0 then .abstract name else .filesystem ((b :: name).takeWhile (· ≠ 0)) := by
  rw [denotes, Nat.add_sub_cancel_left, ← addr.size, List.take_length]

/-- A path is copied up to the last byte but one, which stays NUL. -/
theorem sunPath_filesystem {s : List UInt8} (h : s.head? ≠ some atSign) :
    (sockaddr s).sunPath = s.take 107 ++ (List.replicate (107 - s.length) 0 ++ [0]) := by
  rw [sockaddr, if_neg h]
  simp [strncpy, sunPathSize]

/-- Behind an `'@'` at least one NUL is left, however long the name. -/
theorem sunPath_abstract {s : List UInt8} (h : s.head? = some atSign) :
    (sockaddr s).sunPath =
      0 :: ((s.drop 1).take 106 ++ (List.replicate (106 - (s.drop 1).length) 0 ++ [0])) := by
  rw [sockaddr, if_pos h]
  simp [strncpy, sunPathSize]

theorem takeWhile_padding (k : Nat) :
    (List.replicate k (0 : UInt8) ++ [0]).takeWhile (· ≠ 0) = [] := by
  cases k <;> simp [List.replicate_succ]

theorem denotes_filesystem {s : List UInt8} (hs : s ≠ []) (hnul : (0 : UInt8) ∉ s)
    (h : s.head? ≠ some atSign) :
    denotes (sockaddr s) (sunPathOffset + sunPathSize) = .filesystem (s.take 107) := by
  have htaken : ∀ b ∈ s.take 107, decide (b ≠ 0) = true := fun b hb =>
    decide_eq_true fun h0 => hnul (h0 ▸ List.mem_of_mem_take hb)
  have hpath : (s.take 107 ++ (List.replicate (107 - s.length) 0 ++ [0])).takeWhile (· ≠ 0) =
      s.take 107 := by
    rw [List.takeWhile_append_of_pos htaken, takeWhile_padding, List.append_nil]
  rw [denotes_whole, sunPath_filesystem h]
  obtain ⟨b, t, rfl⟩ := List.exists_cons_of_ne_nil hs
  have hb : b ≠ 0 := fun h0 => hnul (h0 ▸ List.mem_cons_self)
  rw [List.take_succ_cons, List.cons_append] at hpath ⊢
  dsimp only
  rw [if_neg hb, hpath]

theorem denotes_abstract {s : List UInt8} (h : s.head? = some atSign) :
    denotes (sockaddr s) (sunPathOffset + sunPathSize) =
      .abstract ((s.drop 1).take 106 ++
        (List.replicate (106 - (s.drop 1).length) 0 ++ [0])) := by
  rw [denotes_whole, sunPath_abstract h]
  exact if_pos rfl

theorem denotes_eq_named_iff {s : List UInt8} (hs : s ≠ []) (hnul : (0 : UInt8) ∉ s) :
    denotes (sockaddr s) (sunPathOffset + sunPathSize) = named s ↔
      s.head? ≠ some atSign ∧ s.length < sunPathSize := by
  by_cases h : s.head? = some atSign
  · refine iff_of_false (fun heq => ?_) fun h' => h'.1 h
    rw [denotes_abstract h, named, if_pos h] at heq
    refine hnul (List.mem_of_mem_drop (i := 1) ?_)
    rw [← Address.abstract.inj heq]
    exact List.mem_append_right _ (List.mem_append_right _ List.mem_cons_self)
  · rw [denotes_filesystem hs hnul h, named, if_neg h, Address.filesystem.injEq,
      List.take_eq_self_iff, and_iff_right h]
    exact Nat.lt_succ_iff.symm

/-- The named socket is addressed exactly when it is a path that fits. -/
theorem addresses_iff (s payload : List UInt8) (hs : s ≠ []) (hnul : (0 : UInt8) ∉ s) :
    Addresses s payload ↔ s.head? ≠ some atSign ∧ s.length < sunPathSize := by
  have hsent : notifyRaw (some s) true payload =
      some ⟨payload, sockaddr s, sunPathOffset + sunPathSize⟩ := by
    rw [notifyRaw, if_neg hs]
    rfl
  rw [← denotes_eq_named_iff hs hnul]
  constructor
  · intro h
    exact h.named true _ hsent
  · intro h
    refine ⟨fun _ => ⟨_, hsent⟩, fun opens d hd => ?_⟩
    cases opens with
    | true =>
      obtain rfl := Option.some.inj (hsent.symm.trans hd)
      exact h
    | false =>
      rw [notifyRaw, if_neg hs] at hd
      exact absurd hd nofun

theorem addresses_iff_run :
    Addresses [0x2f, 0x72, 0x75, 0x6e] [] ↔
      [0x2f, 0x72, 0x75, 0x6e].head? ≠ some atSign ∧
        ([0x2f, 0x72, 0x75, 0x6e] : List UInt8).length < sunPathSize :=
  addresses_iff _ [] (by decide) (by decide)

/-- The abstract name `n` gets 106 NULs, and a path of 108 bytes loses its last. -/
theorem other_sockets :
    let name : List UInt8 := [atSign, 0x6e]
    let path : List UInt8 := List.replicate 108 0x2f
    (denotes (sockaddr name) (sunPathOffset + sunPathSize) =
        .abstract (0x6e :: List.replicate 106 0) ∧
      named name = .abstract [0x6e] ∧ ¬ Addresses name []) ∧
    (denotes (sockaddr path) (sunPathOffset + sunPathSize) =
        .filesystem (List.replicate 107 0x2f) ∧
      named path = .filesystem path ∧ ¬ Addresses path []) := by
  intro name path
  have hname : denotes (sockaddr name) (sunPathOffset + sunPathSize) =
      .abstract (0x6e :: List.replicate 106 0) := denotes_abstract rfl
  have hpath : denotes (sockaddr path) (sunPathOffset + sunPathSize) =
      .filesystem (List.replicate 107 0x2f) :=
    denotes_filesystem (by simp [path]) (by simp [path]) (by simp [path, atSign])
  refine ⟨⟨hname, rfl, fun h => ?_⟩, hpath, rfl, fun h => ?_⟩
  · exact absurd (hname.symm.trans (h.named true _ rfl)) (by decide)
  · have hlengths := Address.filesystem.inj (hpath.symm.trans (h.named true _ rfl))
    exact absurd (congrArg List.length hlengths) (by simp [path])

end Surrogate.Platform.NotifySocket
