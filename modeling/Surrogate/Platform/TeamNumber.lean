import Surrogate.Platform.NetworkTemplate

/-!
# Team numbers

The script reads the same digits as text, in octal and in decimal, and the three readings
agree. What it accepts is the content without white space and NULs: a NUL never gets into a
variable of the shell.
-/

namespace Surrogate.Platform.TeamNumber

open Surrogate.Daemon (Bytes ascii)
open Surrogate.Daemon.WebUI (isDigit)
open Surrogate.PiOs.NetworkRender
open Digits
open NetworkTemplate (Template addresses addresses_infix sed_source)

/-- One to four decimal digits of a number that is at least 1. -/
structure Team where
  digits : List ℕ
  decimal : ∀ d ∈ digits, d < 10
  nonempty : 1 ≤ digits.length
  short : digits.length ≤ 4
  positive : 1 ≤ value digits

def Team.text (t : Team) : Bytes := t.digits.map digitByte

def Team.number (t : Team) : ℕ := value t.digits

def hostFor (n : ℕ) : Bytes := ascii "systemcore-" ++ decimal n ++ ascii "-frc"

/-- The template is written for team `n`, whatever it is, and a host that does not report its
name already is given it. -/
structure Assigned (env : Env) (host after : Host) (n : ℕ) : Prop where
  written : after.config = some (sed (n / 100) (n % 100) env.template)
  config : ∀ tmpl : Template, env.template = tmpl.source → after.config = some (tmpl.fill n)
  subnet : env.template = Template.frcEth.source →
    ∃ text, after.config = some text ∧ addresses n <:+: text
  named : reported host = hostFor n →
    after.etcHostname = host.etcHostname ∧ after.hostname = host.hostname
  renamed : reported host ≠ hostFor n → after.etcHostname = hostFor n ++ [newline] ∧
    after.hostname = if env.hostnamectlWorks then hostFor n else host.hostname

structure FellBack (host after : Host) : Prop where
  config : after.config = some dhcpFallback
  etcHostname : after.etcHostname = host.etcHostname
  hostname : after.hostname = host.hostname

/-- The script ends with success, for a team if what `strip` leaves of the content is one, and
otherwise for DHCP. -/
structure RendersBy (strip : Bytes → Bytes) (env : Env) (host : Host) : Prop where
  status : (run env host).1 = 0
  assigned : ∀ t : Team, env.teamFile.map strip = some t.text →
    Assigned env host (run env host).2 t.number
  fellBack : (∀ t : Team, env.teamFile.map strip ≠ some t.text) →
    FellBack host (run env host).2

def withoutSpace (content : Bytes) : Bytes := content.filter fun c => !isSpace c

def withoutSpaceAndNul (content : Bytes) : Bytes :=
  (withoutSpace content).filter (· ≠ 0)

/-! ## The script -/

theorem commandSubstitution_digits {l : List ℕ} (h : ∀ d ∈ l, d < 10) :
    commandSubstitution (l.map digitByte) = l.map digitByte := by
  have hne : ∀ c ∈ l.map digitByte, c ≠ 0 ∧ c ≠ newline := by
    intro c hc
    obtain ⟨d, hd, rfl⟩ := List.mem_map.mp hc
    exact ⟨(digitByte_ne (h d hd)).1, (digitByte_ne (h d hd)).2.1⟩
  rw [commandSubstitution, List.filter_eq_self.mpr fun c hc => decide_eq_true (hne c hc).1,
    List.rdropWhile_eq_self_iff]
  exact fun hl hlast => (hne _ (List.getLast_mem hl)).2 (of_decide_eq_true hlast)

theorem rawOf_eq (env : Env) : rawOf env = (env.teamFile.map withoutSpaceAndNul).getD [] := by
  rw [rawOf]
  cases env.teamFile with
  | none => rfl
  | some content =>
    dsimp only [Option.map_some, Option.getD_some]
    rw [withoutSpaceAndNul, withoutSpace, ← trDelete, commandSubstitution,
      List.rdropWhile_eq_self_iff]
    intro hl hlast
    have hmem := List.mem_filter.mp (List.mem_of_mem_filter (List.getLast_mem hl))
    rw [of_decide_eq_true hlast] at hmem
    exact absurd hmem.2 (by decide)

theorem matchesDigits_iff (raw : Bytes) :
    matchesDigits raw = true ↔
      ∃ l : List ℕ, (∀ d ∈ l, d < 10) ∧ 1 ≤ l.length ∧ l.length ≤ 4 ∧ raw = l.map digitByte := by
  constructor
  · intro h
    simp only [matchesDigits, Bool.and_eq_true, decide_eq_true_eq, List.all_eq_true] at h
    have hdigit : ∀ c ∈ raw, 48 ≤ c.toNat ∧ c.toNat ≤ 57 := by
      intro c hc
      have := h.2 c hc
      simpa [isDigit, UInt8.le_iff_toNat_le] using this
    refine ⟨raw.map fun c => c.toNat - 48, ?_, by simpa using h.1.1, by simpa using h.1.2, ?_⟩
    · intro d hd
      obtain ⟨c, hc, rfl⟩ := List.mem_map.mp hd
      have := hdigit c hc
      omega
    · rw [List.map_map]
      refine (List.map_id raw).symm.trans (List.map_congr_left fun c hc => ?_)
      rw [Function.comp_apply, digitByte, Nat.add_sub_cancel' (hdigit c hc).1, UInt8.ofNat_toNat]
      rfl
  · rintro ⟨l, hl, h1, h4, rfl⟩
    have hall : (l.map digitByte).all isDigit = true := by
      rw [List.all_map, List.all_eq_true]
      exact fun d hd => isDigit_digitByte (hl d hd)
    rw [matchesDigits, List.length_map, hall, decide_eq_true h1, decide_eq_true h4]
    rfl

/-- What the script does not fall back on. -/
theorem usable_iff (raw : Bytes) :
    matchesDigits raw = true ∧ lessThanOne raw = false ↔ ∃ t : Team, raw = t.text := by
  constructor
  · rintro ⟨hmatch, hguard⟩
    obtain ⟨l, hl, h1, h4, rfl⟩ := (matchesDigits_iff raw).mp hmatch
    refine ⟨⟨l, hl, h1, h4, Nat.not_lt.mp fun hlt => ?_⟩, rfl⟩
    rw [(lessThanOne_iff hl).mpr hlt] at hguard
    exact absurd hguard nofun
  · rintro ⟨t, rfl⟩
    refine ⟨(matchesDigits_iff _).mpr ⟨t.digits, t.decimal, t.nonempty, t.short, rfl⟩, ?_⟩
    rw [Bool.eq_false_iff]
    exact mt (lessThanOne_iff t.decimal).mp (Nat.not_lt.mpr t.positive)

theorem expand_some (n : ℕ) : expand (some n) = pure n := rfl

theorem printf04d_decimal {n : ℕ} (h : n ≠ 0) :
    printf04d (decimal n) = pure ((paddedDigits n).map digitByte) := by
  rw [printf04d, constant_decimal h, expand_some, pure_bind, leftpad_decimal]

theorem run_fallBack {env : Env} (h : ∀ t : Team, rawOf env ≠ t.text) (host : Host) :
    ∃ line, run env host =
      (0, { host with config := some dhcpFallback, journal := host.journal ++ [line] }) := by
  rw [run, frcNetworkRender]
  dsimp only
  by_cases hempty : rawOf env = []
  · rw [if_pos hempty]
    exact ⟨_, rfl⟩
  · have hbad : (!matchesDigits (rawOf env) || lessThanOne (rawOf env)) = true := by
      by_contra hgood
      rw [Bool.not_eq_true, Bool.or_eq_false_iff, Bool.not_eq_false'] at hgood
      obtain ⟨t, ht⟩ := (usable_iff _).mp hgood
      exact h t ht
    rw [if_neg hempty, if_pos hbad]
    exact ⟨_, rfl⟩

theorem Team.number_lt (t : Team) : t.number < 10 ^ 4 :=
  Nat.lt_of_lt_of_le (value_lt t.decimal) (Nat.pow_le_pow_right (by decide) t.short)

theorem Team.number_ne_zero (t : Team) : t.number ≠ 0 := Nat.one_le_iff_ne_zero.mp t.positive

theorem Team.text_ne_nil (t : Team) : t.text ≠ [] := by
  intro hnil
  have := t.nonempty
  rw [List.map_eq_nil_iff.mp hnil] at this
  exact absurd this (by decide)

/-- No arithmetic expansion fails on a team's digits, so the script gets past them all. -/
theorem frcNetworkRender_team {env : Env} {t : Team} (h : rawOf env = t.text) :
    frcNetworkRender env = (do
      modify fun host =>
        { host with config := some (sed (t.number / 100) (t.number % 100) env.template) }
      setHostname env (hostFor t.number)
      echo (rendered t.number (t.number / 100) (t.number % 100) (hostFor t.number))) := by
  have hgood := (usable_iff t.text).mpr ⟨t, rfl⟩
  have hguard : ¬ (!matchesDigits t.text || lessThanOne t.text) = true := by
    rw [hgood.1, hgood.2]
    decide
  have hteam : constantIn 10 t.text = some t.number := constantIn_ten t.decimal
  have hpadded : commandSubstitution <$> printf04d (decimal t.number) =
      pure ((paddedDigits t.number).map digitByte) := by
    rw [printf04d_decimal t.number_ne_zero, map_pure,
      commandSubstitution_digits (paddedDigits_lt _)]
  have hslices := constantIn_slices t.number_lt
  rw [frcNetworkRender]
  dsimp only
  rw [h, if_neg t.text_ne_nil, if_neg hguard, hteam, expand_some, pure_bind, hpadded, pure_bind,
    hslices.1, expand_some, pure_bind, hslices.2, expand_some, pure_bind]
  rfl

theorem run_get_bind {α : Type} (f : Host → Script α) (host : Host) :
    (get >>= f).run host = (f host).run host := rfl

theorem run_modify_bind {α : Type} (g : Host → Host) (f : PUnit → Script α) (host : Host) :
    (modify g >>= f).run host = (f ()).run (g host) := rfl

theorem run_setHostname (env : Env) (wantHost : Bytes) (host : Host) :
    (setHostname env wantHost).run host = .ok ()
      { host with
        etcHostname :=
          if reported host = wantHost then host.etcHostname else wantHost ++ [newline]
        hostname :=
          if reported host ≠ wantHost ∧ env.hostnamectlWorks then wantHost
          else host.hostname } := by
  rw [setHostname, run_get_bind]
  by_cases hreported : reported host = wantHost
  · rw [if_neg (not_not_intro hreported), if_pos hreported, if_neg fun h => h.1 hreported]
    rfl
  · rw [if_pos hreported, if_neg hreported, run_modify_bind]
    by_cases hworks : env.hostnamectlWorks = true
    · rw [if_pos hworks, if_pos ⟨hreported, hworks⟩]
      rfl
    · rw [if_neg hworks, if_neg fun h => hworks h.2]
      rfl

theorem run_team {env : Env} {t : Team} (h : rawOf env = t.text) (host : Host) :
    run env host = (0,
      { config := some (sed (t.number / 100) (t.number % 100) env.template)
        etcHostname :=
          if reported host = hostFor t.number then host.etcHostname
          else hostFor t.number ++ [newline]
        hostname :=
          if reported host ≠ hostFor t.number ∧ env.hostnamectlWorks then hostFor t.number
          else host.hostname
        journal := host.journal ++
          [rendered t.number (t.number / 100) (t.number % 100) (hostFor t.number)] }) := by
  rw [run, frcNetworkRender_team h, run_modify_bind, EStateM.run_bind, run_setHostname]
  rfl

/-! ## What the script renders -/

theorem assigned_run {env : Env} {t : Team} (h : rawOf env = t.text) (host : Host) :
    Assigned env host (run env host).2 t.number := by
  rw [run_team h]
  have hconfig : ∀ tmpl : Template, env.template = tmpl.source →
      some (sed (t.number / 100) (t.number % 100) env.template) = some (tmpl.fill t.number) := by
    intro tmpl htmpl
    rw [htmpl, sed_source]
  refine ⟨rfl, hconfig, fun htmpl => ⟨_, hconfig _ htmpl, addresses_infix _⟩, ?_, ?_⟩
  · intro hreported
    exact ⟨if_pos hreported, if_neg fun h => h.1 hreported⟩
  · intro hreported
    exact ⟨if_neg hreported, by simp only [ne_eq, hreported, not_false_iff, true_and]⟩

theorem fellBack_run {env : Env} (h : ∀ t : Team, rawOf env ≠ t.text) (host : Host) :
    (run env host).1 = 0 ∧ FellBack host (run env host).2 := by
  obtain ⟨line, hrun⟩ := run_fallBack h host
  rw [hrun]
  exact ⟨rfl, rfl, rfl, rfl⟩

theorem rawOf_eq_text_iff (env : Env) (t : Team) :
    rawOf env = t.text ↔ env.teamFile.map withoutSpaceAndNul = some t.text := by
  rw [rawOf_eq]
  cases env.teamFile with
  | none => exact iff_of_false (fun h => t.text_ne_nil h.symm) nofun
  | some content => rw [Option.map_some, Option.getD_some, Option.some.injEq]

/-- The guard says what the decimal reading says, and the script accepts exactly the team
numbers, whatever is in the file and on the machine. -/
theorem renders_teams :
    (∀ digits : List ℕ, (∀ d ∈ digits, d < 10) →
      (lessThanOne (digits.map digitByte) = true ↔ value digits < 1)) ∧
    ∀ (env : Env) (host : Host), RendersBy withoutSpaceAndNul env host := by
  refine ⟨fun digits h => lessThanOne_iff h, fun env host => ?_⟩
  refine ⟨?_, fun t ht => assigned_run ((rawOf_eq_text_iff env t).mpr ht) host, fun hno => ?_⟩
  · by_cases hteam : ∃ t : Team, rawOf env = t.text
    · obtain ⟨t, ht⟩ := hteam
      rw [run_team ht]
    · exact (fellBack_run (fun t ht => hteam ⟨t, ht⟩) host).1
  · exact (fellBack_run (fun t ht => hno t ((rawOf_eq_text_iff env t).mp ht)) host).2

/-- Octal has no 8, and `0842` is team 842. -/
theorem renders_teams_0842 :
    lessThanOne ([0, 8, 4, 2].map digitByte) = false ∧
      Assigned ⟨[], some (ascii " 0842\n"), Template.frcEth.source, true⟩ ⟨none, [], [], []⟩
        (run ⟨[], some (ascii " 0842\n"), Template.frcEth.source, true⟩ ⟨none, [], [], []⟩).2 842 :=
  ⟨Bool.eq_false_iff.mpr
      (mt (renders_teams.1 [0, 8, 4, 2] (by decide)).mp (by decide)),
    (renders_teams.2 _ _).assigned ⟨[0, 8, 4, 2], by decide, by decide, by decide, by decide⟩
      (by decide)⟩

/-- A NUL is neither white space nor a digit, and yet `12` and a NUL are team 12. -/
theorem nul_content :
    ¬ ∀ (env : Env) (host : Host), RendersBy withoutSpace env host := by
  intro h
  have hfell := (h ⟨ascii "/boot/firmware/frc-team-number", some [49, 50, 0],
    Template.frcEth.source, true⟩ ⟨none, [], [], []⟩).fellBack ?_
  · exact absurd hfell.hostname (by decide)
  · intro t ht
    have hmem : (0 : UInt8) ∈ t.text := Option.some.inj ht ▸ by decide
    obtain ⟨d, hd, hzero⟩ := List.mem_map.mp hmem
    exact (digitByte_ne (t.decimal d hd)).1 hzero

end Surrogate.Platform.TeamNumber
