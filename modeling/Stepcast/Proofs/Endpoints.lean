import Stepcast.Proofs.Outcomes
import Stepcast.Proofs.Wire.Numerals
import Stepcast.Settings

/-!
# Endpoints of ranks

With a port the ranks of a stream take the ports from there on; without one their endpoints end in
the rank. Port and rank are added in 32 bits: a rank that is so great that the sum does not fit is
not told that no port is left. Checked arithmetic stops there, and otherwise the sum starts over, so
the rank gets a port before that of the stream.

Main statements: `endpointOfRank_injective`, `endpointOfRank_congr`, `endpoints_exact`.
-/

namespace Stepcast

namespace Settings

variable {s : Settings} {rank rank' : UInt32} {address : String}

theorem toNat_add_rank (port : UInt16) (rank : UInt32) :
    (port.toUInt32 + rank).toNat = (port.toNat + rank.toNat) % 2 ^ 32 := by
  rw [UInt32.toNat_add, UInt16.toNat_toUInt32]

/-- With a port, a rank has an endpoint if the sum of port and rank is a port, as a word. -/
theorem endpointOfRank_eq_of_port {port : UInt16} (hport : s.port = some port) (rank : UInt32) :
    s.endpointOfRank rank =
      if 65535 < (port.toNat + rank.toNat) % 2 ^ 32 then .error (.configuration (.noPort rank))
      else s.host.map (· ++ ":" ++ toString ((port.toNat + rank.toNat) % 2 ^ 32)) := by
  by_cases hrank : rank = 0
  · have hsmall : port.toNat < 2 ^ 16 := port.toNat_lt
    have hsum : (port.toNat + rank.toNat) % 2 ^ 32 = port.toNat := by
      rw [hrank, UInt32.toNat_zero, Nat.add_zero]
      exact Nat.mod_eq_of_lt (by omega)
    rw [endpointOfRank, if_pos hrank, endpoint, hport, hsum, if_neg (by omega)]
    cases s.host <;> rfl
  · have hword : (65535 < port.toUInt32 + rank) ↔
        65535 < (port.toNat + rank.toNat) % 2 ^ 32 := by
      rw [UInt32.lt_iff_toNat_lt, toNat_add_rank]
      rfl
    rw [endpointOfRank, if_neg hrank, hport]
    by_cases hlarge : 65535 < port.toUInt32 + rank
    · rw [if_pos (hword.mp hlarge)]
      simp only [hlarge, if_true]
      rfl
    · rw [if_neg (fun h => hlarge (hword.mpr h)), ← toNat_add_rank]
      simp only [hlarge, if_false]
      cases s.host <;> rfl

theorem endpointOfRank_eq_of_no_port (hport : s.port = none) (rank : UInt32) :
    s.endpointOfRank rank =
      s.host.map (fun host => if rank = 0 then host else host ++ "/" ++ toString rank.toNat) := by
  have hendpoint : s.endpoint = s.host := by
    rw [endpoint, hport]
    cases s.host <;> rfl
  by_cases hrank : rank = 0
  · simp only [endpointOfRank, if_pos hrank, hendpoint]
    cases s.host <;> rfl
  · simp only [endpointOfRank, if_neg hrank, hport, hendpoint]
    cases s.host <;> rfl

theorem endpointOfRank_of_port {port : UInt16} (hport : s.port = some port)
    (h : s.endpointOfRank rank = .ok address) : ∃ host, s.host = .ok host ∧
      address = host ++ ":" ++ toString (port.toUInt32 + rank).toNat := by
  rw [endpointOfRank_eq_of_port hport, ← toNat_add_rank] at h
  split at h
  · cases h
  · obtain ⟨host, hhost, heq⟩ := map_eq_ok.mp h
    exact ⟨host, hhost, heq.symm⟩

theorem endpointOfRank_of_no_port (hport : s.port = none)
    (h : s.endpointOfRank rank = .ok address) : ∃ host, s.host = .ok host ∧
      address = if rank = 0 then host else host ++ "/" ++ toString rank.toNat := by
  rw [endpointOfRank_eq_of_no_port hport] at h
  obtain ⟨host, hhost, heq⟩ := map_eq_ok.mp h
  exact ⟨host, hhost, heq.symm⟩

/-- **Ranks have endpoints of their own.** -/
theorem endpointOfRank_injective (h : s.endpointOfRank rank = .ok address)
    (h' : s.endpointOfRank rank' = .ok address) : rank = rank' := by
  have hsuffix : ∀ (host : String) (n : Nat), host ≠ host ++ "/" ++ toString n := by
    intro host n heq
    have hlength := congrArg String.length heq
    rw [String.length_append, String.length_append] at hlength
    have hslash : "/".length = 1 := rfl
    omega
  cases hport : s.port with
  | some port =>
    obtain ⟨host, hhost, rfl⟩ := endpointOfRank_of_port hport h
    obtain ⟨host', hhost', heq⟩ := endpointOfRank_of_port hport h'
    cases Except.ok.inj (hhost.symm.trans hhost')
    have hnumber := toString_injective ((String.append_right_inj _).mp heq)
    exact (UInt32.add_right_inj _).mp (UInt32.toNat_inj.mp hnumber)
  | none =>
    obtain ⟨host, hhost, rfl⟩ := endpointOfRank_of_no_port hport h
    obtain ⟨host', hhost', heq⟩ := endpointOfRank_of_no_port hport h'
    cases Except.ok.inj (hhost.symm.trans hhost')
    split at heq
    · rename_i hzero
      split at heq
      · rename_i hzero'
        rw [hzero, hzero']
      · exact absurd heq (hsuffix host _)
    · split at heq
      · exact absurd heq.symm (hsuffix host _)
      · exact UInt32.toNat_inj.mp (toString_injective ((String.append_right_inj _).mp heq))

theorem endpointOfRank_congr {s' : Settings} (haddress : s.address = s'.address)
    (hport : s.port = s'.port) (rank : UInt32) :
    s.endpointOfRank rank = s'.endpointOfRank rank := by
  have hhost : s.host = s'.host := by rw [host, host, haddress]
  have hendpoint : s.endpoint = s'.endpoint := by rw [endpoint, endpoint, hhost, hport]
  rw [endpointOfRank, endpointOfRank, hhost, hendpoint, hport]

/-! ## Which ranks have an endpoint -/

section Exact

variable {hostName : String} {port : UInt16}

theorem host_eq_ok (haddress : s.address = some hostName) (hname : hostName ≠ "") :
    s.host = .ok hostName := by
  have hnonempty : (!hostName.isEmpty) = true := by
    rw [Bool.not_eq_true', Bool.eq_false_iff, ne_eq, String.isEmpty_iff]
    exact hname
  rw [host, haddress, Option.filter_some, if_pos hnonempty]

theorem endpointOfRank?_eq_of_port (hport : s.port = some port) (rank : UInt32) :
    s.endpointOfRank? rank =
      if 2 ^ 32 ≤ port.toNat + rank.toNat then none else some (s.endpointOfRank rank) := by
  rw [endpointOfRank?, hport]
  by_cases hsum : 2 ^ 32 ≤ port.toNat + rank.toNat
  · rw [if_pos hsum, if_pos]
    simpa using hsum
  · rw [if_neg hsum, if_neg]
    simpa using hsum

/-- **The endpoints of the ranks of a stream** whose address is not empty. With a port, a rank has
an endpoint just if the sum of port and rank is a port, and is told that no port is left where the
sum is greater, as long as it fits 32 bits. Where it does not, checked arithmetic stops, and
unchecked arithmetic gives the rank a port before that of the stream. Without a port every rank has
an endpoint. No two ranks have the same one. -/
theorem endpoints_exact (haddress : s.address = some hostName) (hname : hostName ≠ "") :
    (∀ port, s.port = some port → ∀ rank,
      ((∃ e, s.endpointOfRank? rank = some (.ok e)) ↔ port.toNat + rank.toNat ≤ 65535) ∧
      (port.toNat + rank.toNat ≤ 65535 → s.endpointOfRank? rank =
        some (.ok (hostName ++ ":" ++ toString (port.toNat + rank.toNat)))) ∧
      (65535 < port.toNat + rank.toNat → port.toNat + rank.toNat < 2 ^ 32 →
        s.endpointOfRank? rank = some (.error (.configuration (.noPort rank)))) ∧
      (2 ^ 32 ≤ port.toNat + rank.toNat → s.endpointOfRank? rank = none ∧
        s.endpointOfRank rank =
          .ok (hostName ++ ":" ++ toString (port.toNat + rank.toNat - 2 ^ 32)))) ∧
    (s.port = none → ∀ rank, s.endpointOfRank? rank =
      some (.ok (if rank = 0 then hostName else hostName ++ "/" ++ toString rank.toNat))) ∧
    ∀ rank rank' e, rank ≠ rank' → s.endpointOfRank rank = .ok e →
      s.endpointOfRank rank' ≠ .ok e := by
  have hhost := host_eq_ok haddress hname
  refine ⟨fun port hport rank => ?_, fun hport rank => ?_, fun rank rank' e hne h h' =>
    hne (endpointOfRank_injective h h')⟩
  · have hword := endpointOfRank_eq_of_port hport rank
    rw [hhost] at hword
    have hchecked := endpointOfRank?_eq_of_port hport rank
    have hport_lt : port.toNat < 2 ^ 16 := port.toNat_lt
    have hrank_lt : rank.toNat < 2 ^ 32 := rank.toNat_lt
    have hsmall (h : port.toNat + rank.toNat ≤ 65535) : s.endpointOfRank? rank =
        some (.ok (hostName ++ ":" ++ toString (port.toNat + rank.toNat))) := by
      rw [hchecked, if_neg (by omega), hword, Nat.mod_eq_of_lt (by omega), if_neg (by omega)]
      rfl
    have hlarge (h : 65535 < port.toNat + rank.toNat) (hfits : port.toNat + rank.toNat < 2 ^ 32) :
        s.endpointOfRank? rank = some (.error (.configuration (.noPort rank))) := by
      rw [hchecked, if_neg (by omega), hword, Nat.mod_eq_of_lt hfits, if_pos h]
    have hover (h : 2 ^ 32 ≤ port.toNat + rank.toNat) : s.endpointOfRank? rank = none := by
      rw [hchecked, if_pos h]
    refine ⟨⟨fun ⟨e, he⟩ => ?_, fun h => ⟨_, hsmall h⟩⟩, hsmall, hlarge, fun h => ⟨hover h, ?_⟩⟩
    · by_contra hsum
      by_cases hfits : port.toNat + rank.toNat < 2 ^ 32
      · rw [hlarge (by omega) hfits] at he
        cases he
      · rw [hover (by omega)] at he
        cases he
    · have hwrapped : (port.toNat + rank.toNat) % 2 ^ 32 = port.toNat + rank.toNat - 2 ^ 32 := by
        omega
      rw [hword, hwrapped, if_neg (by omega)]
      rfl
  · rw [endpointOfRank?, hport, endpointOfRank_eq_of_no_port hport, hhost]
    rfl

/-- The settings of a stream at the last port. -/
def lastPort : Settings := { address := some "h", port := some 65535 }

theorem endpoints_exact_sample :
    lastPort.endpointOfRank? 0 = some (.ok "h:65535") ∧
    lastPort.endpointOfRank? 1 = some (.error (.configuration (.noPort 1))) := by
  have haddress : lastPort.address = some "h" := rfl
  obtain ⟨hports, -, -⟩ := endpoints_exact haddress (by decide)
  obtain ⟨-, hfirst, -⟩ := hports 65535 rfl 0
  obtain ⟨-, -, hsecond, -⟩ := hports 65535 rfl 1
  exact ⟨hfirst (by decide), hsecond (by decide) (by decide)⟩

/-- The sum of the last port and the last rank does not fit 32 bits: checked arithmetic stops, and
otherwise the rank gets the port before that of the stream. -/
theorem endpoint_wraps : lastPort.endpointOfRank? 4294967295 = none ∧
    lastPort.endpointOfRank 4294967295 = .ok "h:65534" := by
  have hport : lastPort.port = some 65535 := rfl
  constructor
  · rw [endpointOfRank?_eq_of_port hport, if_pos (by decide)]
  · have hhost : lastPort.host = .ok "h" := host_eq_ok rfl (by decide)
    rw [endpointOfRank_eq_of_port hport, if_neg (by decide), hhost]
    rfl

end Exact

end Settings

end Stepcast
