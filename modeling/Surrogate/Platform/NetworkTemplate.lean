import Surrogate.Platform.Digits

/-!
# The template of the network configuration

A template is a text with two placeholders. `sed` replaces one after the other, and since
the first replacement writes digits only, the second finds the template's own placeholders.
-/

namespace Surrogate.Platform.NetworkTemplate

open Surrogate.Daemon (Bytes ascii)
open Surrogate.Lib.Replace
open Surrogate.PiOs.NetworkRender
open Digits

theorem ascii_ofList (l : List Char) : ascii (String.ofList l) = l.map Char.toUInt8 :=
  congrArg _ String.toList_ofList

def lines (l : List String) : Bytes := l.flatMap fun line => ascii line ++ [newline]

inductive Piece where
  | text (bytes : Bytes)
  | hi
  | lo

def openingBrace : UInt8 := 123

def Piece.Plain : Piece → Prop
  | .text bytes => openingBrace ∉ bytes
  | .hi | .lo => True

instance : DecidablePred Piece.Plain
  | .text bytes => inferInstanceAs (Decidable (openingBrace ∉ bytes))
  | .hi | .lo => inferInstanceAs (Decidable True)

def Piece.source : Piece → Bytes
  | .text bytes => bytes
  | .hi => placeholderHi
  | .lo => placeholderLo

def Piece.fill (n : ℕ) : Piece → Bytes
  | .text bytes => bytes
  | .hi => decimal (n / 100)
  | .lo => decimal (n % 100)

/-- A template has no opening brace outside of its placeholders. -/
structure Template where
  pieces : List Piece
  plain : ∀ p ∈ pieces, p.Plain

namespace Template

def source (tmpl : Template) : Bytes := tmpl.pieces.flatMap Piece.source

/-- The template with the two halves of `n` in place of its placeholders. -/
def fill (n : ℕ) (tmpl : Template) : Bytes := tmpl.pieces.flatMap (Piece.fill n)

def subnetPieces : List Piece := [.text (ascii "10."), .hi, .text (ascii "."), .lo]

def addressPieces : List Piece :=
  .text (ascii "Address=") :: subnetPieces ++ .text (lines [".2/24"]) ::
    .text (ascii "Gateway=") :: subnetPieces ++ .text (lines [".1"]) ::
    .text (ascii "DNS=") :: subnetPieces ++ [.text (lines [".1"])]

/-- The file `50-frc-eth.network.tmpl`. -/
def frcEth : Template where
  pieces := [
    .text (lines
      ["# systemd-networkd config for the Pi's onboard Ethernet, configured with",
        "# FRC's standard team-number-derived static addressing:",
        "#",
        "#   robot controller  10.TE.AM.2     (this Pi)",
        "#   gateway / radio   10.TE.AM.1",
        "#   driver station    10.TE.AM.5",
        "#",
        "# This file is a TEMPLATE. Boot-time render: frc-network-render replaces"]),
    .text (ascii "# "), .hi, .text (ascii " and "), .lo,
    .text (lines
      [" from the integer in /boot/firmware/frc-team-number",
        "# and writes the rendered config to /run/systemd/network/50-frc-eth.network",
        "# before systemd-networkd starts. See pi-os/README.md.",
        "",
        "[Match]",
        "Name=eth0 end0",
        "",
        "[Network]"])] ++ addressPieces ++ [
    .text (lines ["LLMNR=yes", "MulticastDNS=yes", ""]),
    -- The comment has a dash of three bytes.
    .text (ascii "# Keep DHCP off " ++ [226, 128, 148] ++
      lines [" robot controllers always use the static FRC address."]),
    .text (lines ["DHCP=no", "LinkLocalAddressing=no", "IPv6AcceptRA=no"])]
  plain := by
    simp only [addressPieces, subnetPieces, lines, List.flatMap_cons, List.flatMap_nil]
    repeat rw [ascii_ofList]
    decide +kernel

end Template

/-- `10.TE.AM`. -/
def subnet (n : ℕ) : Bytes := ascii "10." ++ decimal (n / 100) ++ ascii "." ++ decimal (n % 100)

/-- The addresses in the installed configuration. -/
def addresses (n : ℕ) : Bytes :=
  ascii "Address=" ++ subnet n ++ lines [".2/24"] ++
    ascii "Gateway=" ++ subnet n ++ lines [".1"] ++
    ascii "DNS=" ++ subnet n ++ lines [".1"]

/-! ## Filling it -/

theorem placeholderHi_eq :
    placeholderHi = [123, 123, 84, 69, 65, 77, 95, 72, 73, 125, 125] := by decide

theorem placeholderLo_eq :
    placeholderLo = [123, 123, 84, 69, 65, 77, 95, 76, 79, 125, 125] := by decide

theorem openingBrace_not_mem_decimal (n : ℕ) : openingBrace ∉ decimal n := by
  rw [decimal_eq, List.mem_map]
  rintro ⟨d, hd, heq⟩
  exact (digitByte_ne (decimalDigits_lt n d hd)).2.2 heq

theorem plain_becomes {pat rep u : Bytes} (hpat : pat.head? = some openingBrace)
    (hu : openingBrace ∉ u) : Becomes pat rep u u := by
  obtain ⟨tail, rfl⟩ := List.head?_eq_some_iff.mp hpat
  exact Becomes.of_not_mem hu

/-- The two placeholders differ behind their common start. -/
theorem placeholderLo_becomes (rep : Bytes) :
    Becomes placeholderHi rep placeholderLo placeholderLo := by
  rw [placeholderHi_eq, placeholderLo_eq]
  refine .cons (fun s h => ?_) (.cons (fun s h => ?_) (.of_not_mem (by decide)))
  · simp [List.cons_prefix_cons] at h
  · simp [List.cons_prefix_cons] at h

theorem sed_source (n : ℕ) (tmpl : Template) :
    sed (n / 100) (n % 100) tmpl.source = tmpl.fill n := by
  have hhi : replace placeholderHi (decimal (n / 100)) tmpl.source =
      tmpl.pieces.flatMap fun
        | .text bytes => bytes
        | .hi => decimal (n / 100)
        | .lo => placeholderLo := by
    refine (Becomes.flatMap fun p hp => ?_).replace_eq
    match p with
    | .text bytes => exact plain_becomes (by decide) (tmpl.plain _ hp)
    | .hi => exact .pattern (by decide)
    | .lo => exact placeholderLo_becomes _
  rw [sed, hhi]
  refine (Becomes.flatMap fun p hp => ?_).replace_eq
  match p with
  | .text bytes => exact plain_becomes (by decide) (tmpl.plain _ hp)
  | .hi => exact plain_becomes (by decide) (openingBrace_not_mem_decimal _)
  | .lo => exact .pattern (by decide)

theorem addresses_infix (n : ℕ) : addresses n <:+: Template.frcEth.fill n := by
  have haddresses : Template.addressPieces.flatMap (Piece.fill n) = addresses n := by
    simp [Template.addressPieces, Template.subnetPieces, Piece.fill, addresses, subnet]
  rw [Template.fill, Template.frcEth, List.flatMap_append, List.flatMap_append, haddresses]
  exact List.infix_append _ _ _

end Surrogate.Platform.NetworkTemplate
