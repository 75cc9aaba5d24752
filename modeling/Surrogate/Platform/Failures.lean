import Surrogate.Lib.Leads
import Surrogate.PiOs.ToolFailures
import Surrogate.Platform.TeamNumber

/-!
# What a failed rendering leaves

The script writes the network configuration first, `/etc/hostname` second and the running name
last, and ends at the first failure. So whatever fails, a name that has changed comes with a
configuration that is complete, and the running name with a file that is. Two failures it does not
notice: `hostnamectl` stands in front of `|| true`, and `hostname` in a condition. A status of 0
says that the configuration is complete, and of the names only what these two let it say.
-/

namespace Surrogate.Platform.Failures

open Surrogate.Daemon (Bytes ascii)
open Surrogate.Lib (Leads)
open Surrogate.PiOs (NetworkRender.run)
open Surrogate.PiOs.NetworkRender (Env Host Script commandSubstitution constantIn decimal
  dhcpFallback digitByte lessThanOne matchesDigits newline printf04d rawOf rendered reported sed)
open Surrogate.PiOs.ToolFailures
open Digits
open TeamNumber (Team hostFor)

/-- What the script takes for the name of the host. -/
def takenFor (f : Faults) (host : Host) : Bytes :=
  f.hostname.elim (reported host) commandSubstitution

/-- What a run that gets to its end leaves. The names are old where `hostname` says the wanted one,
and the running name also where `hostnamectl` fails. -/
structure Done (env : Env) (f : Faults) (text name : Bytes) (host after : Host) : Prop where
  config : after.config = some text
  etcHostname : after.etcHostname =
    if takenFor f host = name then host.etcHostname else name ++ [newline]
  hostname : after.hostname =
    if takenFor f host ≠ name ∧ env.hostnamectlWorks then name else host.hostname

/-- A run against the one with the same `hostnamectl` in which nothing else fails. -/
structure InOrder (env : Env) (f : Faults) (host : Host) : Prop where
  config : ∃ text, (NetworkRender.run env host).2.config = some text ∧
    ((run env f host).2.config = host.config ∨
      ∃ k, (run env f host).2.config = some (text.take k))
  renamed : (run env f host).2.etcHostname ≠ host.etcHostname ∨
      (run env f host).2.hostname ≠ host.hostname →
    (run env f host).2.config = (NetworkRender.run env host).2.config
  hostname : (run env f host).2.hostname ≠ host.hostname →
    (run env f host).2.etcHostname = (run env f host).2.hostname ++ [newline]
  unnamed : (∀ t : Team, rawOf env ≠ t.text) →
    (run env f host).2.etcHostname = host.etcHostname ∧
      (run env f host).2.hostname = host.hostname
  complete : (run env f host).1 = 0 →
    (run env f host).2.config = (NetworkRender.run env host).2.config
  named : (run env f host).1 = 0 → ∀ t : Team, rawOf env = t.text →
    Done env f (sed (t.number / 100) (t.number % 100) env.template) (hostFor t.number) host
      (run env f host).2
  success : (run env f host).1 = 0 → f.hostname = none →
    (run env f host).2.etcHostname = (NetworkRender.run env host).2.etcHostname ∧
      (run env f host).2.hostname = (NetworkRender.run env host).2.hostname
  faultless : f = {} → run env f host = NetworkRender.run env host

/-- Nothing goes wrong between writing `/etc/hostname` and setting the name. -/
def Renames (env : Env) (f : Faults) : Prop :=
  env.hostnamectlWorks = true ∧ ∀ k, f.etcHostname ≠ some (.broken k)

/-- The file and the running name are both old or both new. -/
def Together (name : Bytes) (host after : Host) : Prop :=
  (after.etcHostname = host.etcHostname ∧ after.hostname = host.hostname) ∨
    (after.etcHostname = name ++ [newline] ∧ after.hostname = name)

/-- What may be left at any point of a run that writes `text` and then the name. -/
structure Left (env : Env) (f : Faults) (text name : Bytes) (host after : Host) : Prop where
  config : after.config = host.config ∨ ∃ k, after.config = some (text.take k)
  etcHostname : after.etcHostname = host.etcHostname ∨
    after.config = some text ∧ ∃ k, after.etcHostname = (name ++ [newline]).take k
  hostname : after.hostname = host.hostname ∨
    after.config = some text ∧ after.etcHostname = name ++ [newline] ∧ after.hostname = name
  together : Renames env f → Together name host after

/-! ## The commands -/

variable {env : Env} {f : Faults} {host s : Host} {Q : Unit → Host → Prop}
  {E : ℕ → Host → Prop}

theorem tool_leads {fault : Option ℕ} (hQ : Q () s) (hE : ∀ n, E (n + 1) s) :
    Leads (tool fault) s Q E := by
  cases fault with
  | none => exact Leads.pure hQ
  | some n => exact Leads.throw (hE n)

theorem echo_leads {fails : Bool} {line : Bytes}
    (hQ : Q () { s with journal := s.journal ++ [line] }) (hE : E 1 s) :
    Leads (echo fails line) s Q E :=
  Leads.ite (fun _ => Leads.throw hE) fun _ => Leads.modify hQ

theorem writeNetwork_leads {fault : Option (WriteFault × ℕ)} {text : Bytes}
    (hQ : Q () { s with config := some text }) (hrefused : E 1 s)
    (hbroken : ∀ k n, E (n + 1) { s with config := some (text.take k) }) :
    Leads (writeNetwork fault text) s Q E := by
  rcases fault with _ | ⟨_ | k, n⟩
  · exact Leads.modify hQ
  · exact Leads.throw hrefused
  · exact Leads.bind (P := fun _ t => t = { s with config := some (text.take k) })
      (Leads.modify rfl) fun _ t ht => Leads.throw (ht ▸ hbroken k n)

theorem writeEtcHostname_leads {fault : Option WriteFault} {text : Bytes}
    (hQ : Q () { s with etcHostname := text }) (hrefused : E 1 s)
    (hbroken : ∀ k, fault = some (.broken k) → E 1 { s with etcHostname := text.take k }) :
    Leads (writeEtcHostname fault text) s Q E := by
  rcases fault with _ | _ | k
  · exact Leads.modify hQ
  · exact Leads.throw hrefused
  · exact Leads.bind (P := fun _ t => t = { s with etcHostname := text.take k })
      (Leads.modify rfl) fun _ t ht => Leads.throw (ht ▸ hbroken k rfl)

/-- Reading the team file comes first. -/
theorem readTeam_leads {rest : Script Unit} (hrest : Leads rest s Q E) (hE : ∀ n, E (n + 1) s) :
    Leads (do
      if env.teamFile ≠ none then
        tool f.tr
      rest) s Q E := by
  refine Leads.ite (fun _ => ?_) fun _ => hrest
  exact Leads.bind (P := fun _ t => t = s) (tool_leads rfl hE) fun _ t ht => ht ▸ hrest

theorem frcNetworkRender_fallBack (h : ∀ t : Team, rawOf env ≠ t.text) (f : Faults) :
    ∃ line, frcNetworkRender env f = (do
      if env.teamFile ≠ none then
        tool f.tr
      echo f.stderr line
      writeDhcpFallback f
      throw 0) := by
  rw [frcNetworkRender]
  by_cases hempty : rawOf env = []
  · simp only [if_pos hempty]
    exact ⟨_, rfl⟩
  · have hbad : (!matchesDigits (rawOf env) || lessThanOne (rawOf env)) = true := by
      by_contra hgood
      rw [Bool.not_eq_true, Bool.or_eq_false_iff, Bool.not_eq_false'] at hgood
      obtain ⟨t, ht⟩ := (TeamNumber.usable_iff _).mp hgood
      exact h t ht
    simp only [if_neg hempty, if_pos hbad]
    exact ⟨_, rfl⟩

theorem frcNetworkRender_team {t : Team} (h : rawOf env = t.text) (f : Faults) :
    frcNetworkRender env f = (do
      if env.teamFile ≠ none then
        tool f.tr
      tool f.mkdir
      writeNetwork f.network (sed (t.number / 100) (t.number % 100) env.template)
      setHostname env f (hostFor t.number)
      echo f.stdout
        (rendered t.number (t.number / 100) (t.number % 100) (hostFor t.number))) := by
  have hgood := (TeamNumber.usable_iff t.text).mpr ⟨t, rfl⟩
  have hguard : ¬ (!matchesDigits t.text || lessThanOne t.text) = true := by
    rw [hgood.1, hgood.2]
    decide
  have hteam : constantIn 10 t.text = some t.number := constantIn_ten t.decimal
  have hpadded : commandSubstitution <$> printf04d (decimal t.number) =
      pure ((paddedDigits t.number).map digitByte) := by
    rw [TeamNumber.printf04d_decimal t.number_ne_zero, map_pure,
      TeamNumber.commandSubstitution_digits (paddedDigits_lt _)]
  have hslices := constantIn_slices t.number_lt
  rw [frcNetworkRender]
  simp only [h, if_neg t.text_ne_nil, if_neg hguard, hteam, TeamNumber.expand_some, pure_bind,
    hpadded, hslices.1, hslices.2]
  rfl

/-! ## The script -/

/-- All but the journal. -/
structure Still (host after : Host) : Prop where
  config : after.config = host.config
  etcHostname : after.etcHostname = host.etcHostname
  hostname : after.hostname = host.hostname

theorem Still.left {after : Host} (h : Still host after) (env : Env) (f : Faults)
    (text name : Bytes) : Left env f text name host after :=
  ⟨.inl h.config, .inl h.etcHostname, .inl h.hostname, fun _ => .inl ⟨h.etcHostname, h.hostname⟩⟩

theorem fallBack_leads (h : ∀ t : Team, rawOf env ≠ t.text) (f : Faults) (host : Host)
    (name : Bytes) :
    Leads (frcNetworkRender env f) host (fun _ _ => False) fun status after =>
      Left env f dhcpFallback name host after ∧ after.etcHostname = host.etcHostname ∧
        after.hostname = host.hostname ∧ (status = 0 → after.config = some dhcpFallback) := by
  obtain ⟨line, heq⟩ := frcNetworkRender_fallBack h f
  have hfail {after : Host} (hs : Still host after) (n : ℕ) :
      Left env f dhcpFallback name host after ∧ after.etcHostname = host.etcHostname ∧
        after.hostname = host.hostname ∧ (n + 1 = 0 → after.config = some dhcpFallback) :=
    ⟨hs.left _ _ _ _, hs.etcHostname, hs.hostname, fun h => absurd h (Nat.succ_ne_zero n)⟩
  rw [heq]
  refine readTeam_leads ?_ (hfail ⟨rfl, rfl, rfl⟩)
  refine Leads.bind (P := fun _ => Still host)
    (echo_leads ⟨rfl, rfl, rfl⟩ (hfail ⟨rfl, rfl, rfl⟩ 0)) fun _ s hs => ?_
  have hwrite : Leads (writeDhcpFallback f) s (fun _ after => after.config = some dhcpFallback ∧
      after.etcHostname = host.etcHostname ∧ after.hostname = host.hostname) fun status after =>
        Left env f dhcpFallback name host after ∧ after.etcHostname = host.etcHostname ∧
          after.hostname = host.hostname ∧ (status = 0 → after.config = some dhcpFallback) := by
    refine Leads.bind (P := fun _ t => t = s) (tool_leads rfl (hfail hs)) fun _ t ht => ?_
    subst ht
    refine writeNetwork_leads ⟨rfl, hs.etcHostname, hs.hostname⟩ (hfail hs 0) fun k n => ?_
    exact ⟨⟨.inr ⟨k, rfl⟩, .inl hs.etcHostname, .inl hs.hostname,
      fun _ => .inl ⟨hs.etcHostname, hs.hostname⟩⟩, hs.etcHostname, hs.hostname,
      fun h => absurd h (Nat.succ_ne_zero n)⟩
  refine Leads.bind hwrite fun _ t ht => Leads.throw ?_
  have hwhole : dhcpFallback.take dhcpFallback.length = dhcpFallback := List.take_length
  exact ⟨⟨.inr ⟨_, ht.1.trans (congrArg some hwhole.symm)⟩, .inl ht.2.1, .inl ht.2.2,
    fun _ => .inl ht.2⟩, ht.2.1, ht.2.2, fun _ => ht.1⟩

theorem Done.left {text name : Bytes} {after : Host} (h : Done env f text name host after) :
    Left env f text name host after := by
  obtain ⟨hconfig, hetc, hname⟩ := h
  have hwhole : (name ++ [newline]).take (name ++ [newline]).length = name ++ [newline] :=
    List.take_length
  refine ⟨.inr ⟨text.length, by rw [hconfig, List.take_length]⟩, ?_, ?_, fun hrenames => ?_⟩
  · split at hetc
    · exact .inl hetc
    · exact .inr ⟨hconfig, _, hetc.trans hwhole.symm⟩
  · split at hname
    · next hboth => exact .inr ⟨hconfig, hetc.trans (if_neg hboth.1), hname⟩
    · exact .inl hname
  · by_cases htaken : takenFor f host = name
    · exact .inl ⟨hetc.trans (if_pos htaken), hname.trans (if_neg fun h => h.1 htaken)⟩
    · exact .inr ⟨hetc.trans (if_neg htaken), hname.trans (if_pos ⟨htaken, hrenames.1⟩)⟩

theorem setHostname_leads {text name : Bytes} (hconfig : s.config = some text)
    (hetc : s.etcHostname = host.etcHostname) (hname : s.hostname = host.hostname) :
    Leads (setHostname env f name) s (fun _ after => Done env f text name host after)
      fun status after => status ≠ 0 ∧ Left env f text name host after := by
  have htaken : f.hostname.elim (reported s) commandSubstitution = takenFor f host := by
    rw [takenFor, reported, reported, hname]
  have hstill : Left env f text name host s :=
    ⟨.inr ⟨text.length, by rw [hconfig, List.take_length]⟩, .inl hetc, .inl hname,
      fun _ => .inl ⟨hetc, hname⟩⟩
  refine Leads.bind (P := fun h t => h = s ∧ t = s) (Leads.get ⟨rfl, rfl⟩) fun h t ht => ?_
  rw [ht.1, ht.2, htaken]
  refine Leads.ite (fun hne => ?_) fun heq => Leads.pure ?_
  · refine Leads.bind (P := fun _ after => after = { s with etcHostname := name ++ [newline] })
      (writeEtcHostname_leads rfl ⟨Nat.one_ne_zero, hstill⟩ fun k hk => ⟨Nat.one_ne_zero, ?_⟩)
      fun _ after hafter => ?_
    · exact ⟨hstill.config, .inr ⟨hconfig, k, rfl⟩, .inl hname, fun h => absurd hk (h.2 k)⟩
    · subst hafter
      refine Leads.ite (fun hworks => Leads.modify ?_) fun hworks => Leads.pure ?_
      · exact ⟨hconfig, (if_neg hne).symm, (if_pos ⟨hne, hworks⟩).symm⟩
      · exact ⟨hconfig, (if_neg hne).symm, hname.trans (if_neg fun h => hworks h.2).symm⟩
  · exact ⟨hconfig, hetc.trans (if_pos (not_not.mp heq)).symm,
      hname.trans (if_neg fun h => heq h.1).symm⟩

theorem team_leads {t : Team} (h : rawOf env = t.text) (f : Faults) (host : Host) :
    Leads (frcNetworkRender env f) host
      (fun _ after => Done env f (sed (t.number / 100) (t.number % 100) env.template)
        (hostFor t.number) host after)
      fun status after => status ≠ 0 ∧
        Left env f (sed (t.number / 100) (t.number % 100) env.template) (hostFor t.number) host
          after := by
  rw [frcNetworkRender_team h]
  generalize sed (t.number / 100) (t.number % 100) env.template = text
  have hfail (n : ℕ) : n + 1 ≠ 0 ∧ Left env f text (hostFor t.number) host host :=
    ⟨Nat.succ_ne_zero n, Still.left ⟨rfl, rfl, rfl⟩ _ _ _ _⟩
  refine readTeam_leads ?_ hfail
  refine Leads.bind (P := fun _ t => t = host) (tool_leads rfl hfail) fun _ s hs => ?_
  subst hs
  refine Leads.bind (P := fun _ t => t = { s with config := some text })
    (writeNetwork_leads rfl (hfail 0) fun k n => ⟨Nat.succ_ne_zero n, ?_⟩) fun _ u hu => ?_
  · exact ⟨.inr ⟨k, rfl⟩, .inl rfl, .inl rfl, fun _ => .inl ⟨rfl, rfl⟩⟩
  · subst hu
    refine Leads.bind (setHostname_leads rfl rfl rfl) fun _ after hdone => ?_
    exact echo_leads ⟨hdone.config, hdone.etcHostname, hdone.hostname⟩
      ⟨Nat.one_ne_zero, hdone.left⟩

/-! ## The run -/

theorem run_of_leads (h : Leads (frcNetworkRender env f) host Q E) :
    (Q () (run env f host).2 ∧ (run env f host).1 = 0) ∨
      E (run env f host).1 (run env f host).2 := by
  unfold Leads at h
  unfold run EStateM.run
  cases hr : frcNetworkRender env f host with
  | ok a t =>
    rw [hr] at h
    exact .inl ⟨h, rfl⟩
  | error e t =>
    rw [hr] at h
    exact .inr h

/-- With no fault it is the script as it is modelled without. -/
theorem run_faultless (env : Env) (host : Host) : run env {} host = NetworkRender.run env host := by
  have hscript : frcNetworkRender env {} = PiOs.NetworkRender.frcNetworkRender env := by
    rw [frcNetworkRender, PiOs.NetworkRender.frcNetworkRender]
    simp only [tool, pure_bind, ite_self]
    rfl
  rw [run, NetworkRender.run, hscript]
  cases (PiOs.NetworkRender.frcNetworkRender env).run host <;> rfl

/-- Whatever fails: a configuration that is not the old one is a beginning of the one that would
have been written; names change after it is complete, the running name after the file, and none
without a team; a status of 0 means that the configuration is complete and the names are new but
for what `hostname` and `hostnamectl` got wrong; and where nothing fails it is the run without
faults. -/
theorem in_order (env : Env) (f : Faults) (host : Host) : InOrder env f host := by
  by_cases hteam : ∃ t : Team, rawOf env = t.text
  · obtain ⟨t, ht⟩ := hteam
    have hgood := TeamNumber.run_team ht host
    have hends := run_of_leads (team_leads ht f host)
    have hleft : Left env f (sed (t.number / 100) (t.number % 100) env.template)
        (hostFor t.number) host (run env f host).2 := hends.elim (fun h => h.1.left) fun h => h.2
    have hdone (hstatus : (run env f host).1 = 0) {t : Team} (ht : rawOf env = t.text) :=
      ((run_of_leads (team_leads ht f host)).resolve_right fun h => h.1 hstatus).1
    refine ⟨⟨_, congrArg (fun r => r.2.config) hgood, hleft.config⟩, ?_, ?_, fun hno => ?_, ?_, ?_,
      ?_, ?_⟩
    · intro hchanged
      rw [hgood]
      rcases hchanged with hetc | hname
      · exact (hleft.etcHostname.resolve_left hetc).1
      · exact (hleft.hostname.resolve_left hname).1
    · intro hname
      obtain ⟨-, hetc, hnew⟩ := hleft.hostname.resolve_left hname
      rw [hetc, hnew]
    · exact absurd ht (hno t)
    · intro hstatus
      rw [hgood]
      exact (hdone hstatus ht).config
    · exact fun hstatus _ ht' => hdone hstatus ht'
    · intro hstatus hnone
      have htaken : takenFor f host = reported host := by rw [takenFor, hnone, Option.elim_none]
      rw [hgood]
      exact ⟨by rw [(hdone hstatus ht).etcHostname, htaken],
        by rw [(hdone hstatus ht).hostname, htaken]⟩
    · intro hf
      subst hf
      exact run_faultless env host
  · have hno : ∀ t : Team, rawOf env ≠ t.text := fun t ht => hteam ⟨t, ht⟩
    obtain ⟨line, hgood⟩ := TeamNumber.run_fallBack hno host
    obtain ⟨hleft, hetc, hname, hstatus⟩ :=
      (run_of_leads (fallBack_leads hno f host [])).resolve_left fun h => h.1
    refine ⟨⟨_, congrArg (fun r => r.2.config) hgood, hleft.config⟩, ?_, ?_, fun _ => ⟨hetc, hname⟩,
      ?_, fun _ t ht => absurd ht (hno t), ?_, ?_⟩
    · exact fun hchanged => absurd hchanged (by rw [hetc, hname]; simp)
    · exact fun hchanged => absurd hname hchanged
    · intro hzero
      rw [hgood]
      exact hstatus hzero
    · intro _ _
      rw [hgood]
      exact ⟨hetc, hname⟩
    · intro hf
      subst hf
      exact run_faultless env host

end Surrogate.Platform.Failures
