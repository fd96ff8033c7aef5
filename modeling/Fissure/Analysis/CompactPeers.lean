import Fissure.Analysis.OutgoingPackets

/-!
# The two parsers of compact peer lists

A tracker lists peers in six bytes each, over HTTP and over UDP alike. The parser of the HTTP answer
takes all entries or, when the bytes are no whole number of entries, none; the one of the UDP answer
leaves out the entries without an address or a port, and what the buffer of the answer cannot hold.
`paths_agree_iff` says which bytes both of them read in the same way without losing a peer.
-/

set_option autoImplicit false

namespace Fissure.Analysis

open Fissure.Library Fissure.Model

/-! ## Entries -/

/-- An entry with an address and a port. -/
def ValidEntry (chunk : Bytes) : Prop := ¬ (isUnspecified (chunkIp chunk) ∨ chunkPort chunk = 0)

instance (chunk : Bytes) : Decidable (ValidEntry chunk) := inferInstanceAs (Decidable (¬ _))

/-- The peer of an entry. -/
def entryPeer (chunk : Bytes) : Peer :=
  { peerId := none, ip := ipv4ToString (chunkIp chunk), port := chunkPort chunk }

@[simp] theorem length_chunksExact (size : ℕ) (bytes : Bytes) :
    (chunksExact size bytes).length = bytes.length / size := by
  simp [chunksExact]

/-- INTERNAL: the chunks of the beginning are the first chunks. -/
theorem chunksExact_take {size : ℕ} (hsize : 0 < size) (bytes : Bytes) (n : ℕ) :
    chunksExact size (bytes.take n) = (chunksExact size bytes).take (n / size) := by
  apply List.ext_getElem
  · have hmin : min n bytes.length / size = min (n / size) (bytes.length / size) := by
      rcases Nat.le_total n bytes.length with h | h
      · rw [Nat.min_eq_left h, Nat.min_eq_left (Nat.div_le_div_right h)]
      · rw [Nat.min_eq_right h, Nat.min_eq_right (Nat.div_le_div_right h)]
    simpa using hmin
  · intro i hi _
    have hlt : i < min n bytes.length / size := by simpa using hi
    have hend : size * i + size ≤ n := by
      have hle := Nat.mul_le_of_le_div size (i + 1) _ hlt
      rw [Nat.succ_mul, Nat.mul_comm] at hle
      omega
    simp only [chunksExact, List.getElem_map, List.getElem_range, List.getElem_take]
    rw [List.drop_take, List.take_take, Nat.min_eq_left (by omega)]

/-! ## What each path delivers -/

/-- INTERNAL: over HTTP every entry is delivered if the bytes are a whole number of them, and none
otherwise.
SOURCE: tracker.rs:224-239 -/
theorem deserializePeers_compact (bytes : Bytes) :
    deserializePeers (some (.compact bytes)) =
      some (if bytes.length % 6 = 0 then (chunksExact 6 bytes).map entryPeer else []) := rfl

/-- INTERNAL: the peers of a datagram are those of its valid entries.
SOURCE: tracker.rs:257-290 -/
theorem fromUdpBytes_eq {bytes : Bytes} (h : 20 ≤ bytes.length) :
    TrackerResponse.fromUdpBytes bytes = .ok {
      interval := some (readU32 bytes 8)
      peers := some (((chunksExact 6 (bytes.drop 20)).filter ValidEntry).map entryPeer) } := by
  have hfilter (chunks : List Bytes) :
      chunks.filterMap (fun chunk =>
        if isUnspecified (chunkIp chunk) ∨ chunkPort chunk = 0 then none
        else some (entryPeer chunk)) = (chunks.filter ValidEntry).map entryPeer := by
    induction chunks with
    | nil => rfl
    | cons chunk chunks ih =>
      by_cases hvalid : ValidEntry chunk
      · rw [List.filter_cons_of_pos (by simpa using hvalid), List.map_cons, ← ih]
        exact List.filterMap_cons_some (if_neg hvalid)
      · rw [List.filter_cons_of_neg (by simpa using hvalid), ← ih]
        exact List.filterMap_cons_none (if_pos (not_not.mp hvalid))
  unfold TrackerResponse.fromUdpBytes
  rw [if_neg (Nat.not_lt.mpr h), ← hfilter]
  rfl

/-- The header of a UDP tracker's answer to the announce with the transaction id. -/
def announceHeader (tId interval leechers seeders : UInt32) : Bytes :=
  putU32 1 ++ (putU32 tId.toNat ++ (putU32 interval.toNat ++ (putU32 leechers.toNat ++
    putU32 seeders.toNat)))

/-- INTERNAL: over UDP the valid ones among the first 167 entries are delivered, which are all that
the buffer can hold.
SOURCE: tracker.rs:128-144, tracker.rs:257-290 -/
theorem announceResponse_reply (tId interval leechers seeders : UInt32) (peerBytes : Bytes) :
    announceResponse tId (.datagram (announceHeader tId interval leechers seeders ++ peerBytes)) =
      some (.ok {
        interval := some interval.toNat
        peers :=
          some ((((chunksExact 6 peerBytes).take 167).filter ValidEntry).map entryPeer) }) := by
  have hheader : (announceHeader tId interval leechers seeders).length = 20 := by
    simp [announceHeader]
  have hread (more : Bytes) :
      readU32 (announceHeader tId interval leechers seeders ++ more) 0 = 1 ∧
        readU32 (announceHeader tId interval leechers seeders ++ more) 4 = tId.toNat ∧
        readU32 (announceHeader tId interval leechers seeders ++ more) 8 = interval.toNat := by
    unfold announceHeader
    refine ⟨?_, ?_, ?_⟩
    · rw [List.append_assoc]
      exact readU32_putU32 List.length_nil 1
    · rw [List.append_assoc, List.append_assoc]
      exact readU32_putU32 (length_putU32 _) tId
    · rw [← List.append_assoc, List.append_assoc, List.append_assoc]
      exact readU32_putU32 (by simp) interval
  have htake : (announceHeader tId interval leechers seeders ++ peerBytes).take 1024 =
      announceHeader tId interval leechers seeders ++ peerBytes.take 1004 := by
    rw [List.take_append, List.take_of_length_le (by omega), hheader]
  have hbuffer (zeros : Bytes) :
      (announceHeader tId interval leechers seeders ++ peerBytes.take 1004 ++ zeros).take
          (min (announceHeader tId interval leechers seeders ++ peerBytes).length 1024) =
        announceHeader tId interval leechers seeders ++ peerBytes.take 1004 := by
    apply List.take_left'
    simp [hheader]
    omega
  have hdrop : (announceHeader tId interval leechers seeders ++ peerBytes.take 1004).drop 20 =
      peerBytes.take 1004 := List.drop_left' hheader
  simp only [announceResponse, recvInto, htake, hbuffer]
  rw [List.append_assoc, (hread _).1, (hread _).2.1, if_neg (by simp [hheader]), if_neg (by simp),
    fromUdpBytes_eq (by simp [hheader]), (hread _).2.2, hdrop, chunksExact_take (by decide)]

/-! ## Agreement -/

/-- The peers that come through the UDP path are those that come through the HTTP path, and no
complete valid entry is missing among them. -/
def PathsAgree (tId interval leechers seeders : UInt32) (peerBytes : Bytes) : Prop :=
  ∃ response peers,
    announceResponse tId (.datagram (announceHeader tId interval leechers seeders ++ peerBytes)) =
      some (.ok response) ∧
    response.peers = some peers ∧ deserializePeers (some (.compact peerBytes)) = some peers ∧
    ∀ chunk ∈ chunksExact 6 peerBytes, ValidEntry chunk → entryPeer chunk ∈ peers

/-- The bytes are a whole number of entries, at most as many as the buffer of a UDP answer holds,
and all of them are valid; or they are no whole number of entries, and no complete one is valid. -/
def ReadAlike (peerBytes : Bytes) : Prop :=
  if peerBytes.length % 6 = 0 then
    peerBytes.length ≤ 1004 ∧ ∀ chunk ∈ chunksExact 6 peerBytes, ValidEntry chunk
  else ∀ chunk ∈ chunksExact 6 peerBytes, ¬ ValidEntry chunk

/-- **When the two parsers agree.** For all bytes that a tracker sends as its peers, the UDP path
and the HTTP path deliver the same peers in the same order, and no complete valid entry is lost,
exactly when the bytes are at most 167 complete entries that are all valid, or they end with a part
of an entry and no complete one is valid.
SOURCE: tracker.rs:128-145, tracker.rs:207-241, tracker.rs:257-291 -/
theorem paths_agree_iff (tId interval leechers seeders : UInt32) (peerBytes : Bytes) :
    PathsAgree tId interval leechers seeders peerBytes ↔ ReadAlike peerBytes := by
  have hdelivered : PathsAgree tId interval leechers seeders peerBytes ↔
      (((chunksExact 6 peerBytes).take 167).filter ValidEntry).map entryPeer =
          (if peerBytes.length % 6 = 0 then (chunksExact 6 peerBytes).map entryPeer else []) ∧
        ∀ chunk ∈ chunksExact 6 peerBytes, ValidEntry chunk → entryPeer chunk ∈
          (if peerBytes.length % 6 = 0 then (chunksExact 6 peerBytes).map entryPeer else []) := by
    simp only [PathsAgree, announceResponse_reply, deserializePeers_compact, Option.some.injEq,
      Except.ok.injEq]
    constructor
    · rintro ⟨_, peers, rfl, hudp, rfl, hall⟩
      exact ⟨Option.some.inj hudp, hall⟩
    · rintro ⟨hudp, hall⟩
      exact ⟨_, _, rfl, congrArg some hudp, rfl, hall⟩
  rw [hdelivered, ReadAlike]
  by_cases hwhole : peerBytes.length % 6 = 0
  · simp only [if_pos hwhole]
    have hcount := length_chunksExact 6 peerBytes
    constructor
    · -- as many peers over UDP as there are entries: none is beyond the buffer and none invalid
      rintro ⟨heq, -⟩
      have hlength := congrArg List.length heq
      rw [List.length_map, List.length_map] at hlength
      have hkept := List.length_filter_le (fun chunk => decide (ValidEntry chunk))
        ((chunksExact 6 peerBytes).take 167)
      have htaken := List.length_take_le 167 (chunksExact 6 peerBytes)
      have hfits : (chunksExact 6 peerBytes).length ≤ 167 := by omega
      refine ⟨by omega, ?_⟩
      rw [List.take_of_length_le hfits] at hlength
      simpa using List.length_filter_eq_length_iff.mp hlength
    · rintro ⟨hlength, hvalid⟩
      have hfits : (chunksExact 6 peerBytes).length ≤ 167 := by omega
      have hkept : (chunksExact 6 peerBytes).filter (fun chunk => decide (ValidEntry chunk)) =
          chunksExact 6 peerBytes := List.filter_eq_self.mpr (by simpa using hvalid)
      rw [List.take_of_length_le hfits, hkept]
      exact ⟨rfl, fun chunk hchunk _ => List.mem_map_of_mem hchunk⟩
  · simp only [if_neg hwhole]
    constructor
    · rintro ⟨-, hall⟩ chunk hchunk hvalid
      exact absurd (hall chunk hchunk hvalid) List.not_mem_nil
    · intro hinvalid
      have hnone : ((chunksExact 6 peerBytes).take 167).filter
          (fun chunk => decide (ValidEntry chunk)) = [] := by
        rw [List.filter_eq_nil_iff]
        intro chunk hchunk
        simpa using hinvalid chunk (List.mem_of_mem_take hchunk)
      rw [hnone]
      exact ⟨rfl, fun chunk hchunk hvalid => absurd hvalid (hinvalid chunk hchunk)⟩

/-- An entry without a port comes through the HTTP path only, and a byte after an entry makes that
path lose the entry. -/
theorem paths_differ :
    ¬ PathsAgree 1 2 3 4 [10, 0, 0, 1, 0, 0] ∧ ¬ PathsAgree 1 2 3 4 [10, 0, 0, 1, 26, 225, 0] := by
  constructor
  · rintro ⟨response, peers, hudp, hresponse, hhttp, -⟩
    rw [announceResponse_reply] at hudp
    cases hudp
    rw [← hresponse] at hhttp
    revert hhttp
    decide +kernel
  · rintro ⟨response, peers, -, -, hhttp, hall⟩
    cases hhttp
    revert hall
    decide +kernel

end Fissure.Analysis
