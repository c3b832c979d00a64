import SthCore.Crypto.Codec
import SthCore.Crypto.Reference
import SthCore.P2p.SocketAddr

/-!
Signed address records and what their signature says.  The signed message joins
the addresses and appends the relay without a mark between the two.
-/

namespace SthCore

open SthCore.Lib

namespace P2p

/-- The Ed25519 keys of the endpoints: reading a key, and checking a signature of a message. -/
structure EndpointKeys where
  parse : Text → Except String Bytes
  verify : Bytes → Bytes → Bytes → Bool

structure SignedAddr where
  v : UInt8 := 1
  id : Text
  addrs : List Text
  relay : Option Text := none
  seq : UInt64
  signature : Text

def domain : Bytes := utf8Bytes "sthpq-addr-v1"

def maxAddrs : Nat := 8

def futureSkew : UInt64 := 600

/-- `addrs.join(",")`. -/
def joinAddrs (addrs : List Text) : Text := ⟨[','].intercalate (addrs.map Text.toList)⟩

theorem joinAddrs_singleton (a : Text) : (joinAddrs [a]).toList = a.toList := by
  change [','].intercalate [a.toList] = a.toList
  rw [List.intercalate_singleton]

namespace SignedAddr

variable {E : EndpointKeys} {P : Primitives} {nethash : Text} {r r' : SignedAddr}

/-- What the message of a record is the hash of. -/
def content (nethash : Text) (r : SignedAddr) : Bytes :=
  domain ++ utf8Bytes nethash ++ utf8Bytes r.id ++ u64le r.seq ++ utf8Bytes (joinAddrs r.addrs) ++
    utf8Bytes (r.relay.getD "")

def message (P : Primitives) (nethash : Text) (r : SignedAddr) : Bytes :=
  P.sha256 (r.content nethash)

/-- Signature and shape check; returns the key of the endpoint. -/
def verify (E : EndpointKeys) (P : Primitives) (nethash : Text) (now expireSecs : UInt64)
    (r : SignedAddr) : Except Error Bytes :=
  if r.v ≠ 1 ∨ maxAddrs < r.addrs.length then
    .error (.sync "sthpq addr: unsupported version or too many addresses")
  else if now + futureSkew < r.seq ∨ r.seq + expireSecs < now then
    .error (.sync s!"sthpq addr: seq {r.seq} outside the accepted window")
  else if r.addrs.any fun a => !isPublicAddr a then
    .error (.sync "sthpq addr: non-public or malformed address")
  else
    match E.parse r.id with
    | .error e => .error (.sync s!"sthpq addr: bad id: {e}")
    | .ok id =>
        match Hex.decode r.signature with
        | .error e => .error (.sync s!"sthpq addr: bad signature hex: {e.display}")
        | .ok sig =>
            if sig.length ≠ 64 then .error (.sync "sthpq addr: signature must be 64 bytes")
            else if E.verify id (r.message P nethash) sig then .ok id
            else .error (.sync "sthpq addr: invalid signature")

/-- What a record that passes the check satisfies. -/
structure Verified (E : EndpointKeys) (P : Primitives) (nethash : Text) (now expireSecs : UInt64)
    (key : Bytes) (r : SignedAddr) : Prop where
  version : r.v = 1
  few : r.addrs.length ≤ maxAddrs
  window : ¬ (now + futureSkew < r.seq ∨ r.seq + expireSecs < now)
  shown : ∀ a ∈ r.addrs, isPublicAddr a = true
  parsed : E.parse r.id = .ok key
  signed : ∃ sig, Hex.decode r.signature = .ok sig ∧ sig.length = 64 ∧
    E.verify key (r.message P nethash) sig = true

theorem verify_eq_ok {now expireSecs : UInt64} {key : Bytes} :
    r.verify E P nethash now expireSecs = .ok key ↔ Verified E P nethash now expireSecs key r := by
  unfold verify
  constructor
  · intro h
    obtain ⟨hversion, h⟩ := ite_error_eq_ok.mp h
    obtain ⟨hwindow, h⟩ := ite_error_eq_ok.mp h
    obtain ⟨hshown, h⟩ := ite_error_eq_ok.mp h
    rw [not_or, not_not, not_lt] at hversion
    cases hparse : E.parse r.id with
    | error e =>
        rw [hparse] at h
        cases h
    | ok id =>
        rw [hparse] at h
        cases hhex : Hex.decode r.signature with
        | error e =>
            rw [hhex] at h
            cases h
        | ok sig =>
            rw [hhex] at h
            obtain ⟨hlength, h⟩ := ite_error_eq_ok.mp h
            split_ifs at h with hsigned
            cases h
            refine ⟨hversion.1, hversion.2, hwindow, ?_, hparse, sig, hhex, not_not.mp hlength,
              hsigned⟩
            intro a ha
            by_contra hprivate
            rw [Bool.not_eq_true] at hprivate
            exact hshown (List.any_eq_true.mpr ⟨a, ha, by rw [hprivate]; rfl⟩)
  · rintro ⟨hversion, hfew, hwindow, hshown, hparse, sig, hhex, hlength, hsigned⟩
    have hall : ¬ (r.addrs.any fun a => !isPublicAddr a) = true := by
      rw [List.any_eq_true]
      rintro ⟨a, ha, hprivate⟩
      rw [hshown a ha] at hprivate
      cases hprivate
    rw [if_neg (not_or.mpr ⟨not_not.mpr hversion, hfew.not_gt⟩), if_neg hwindow, if_neg hall, hparse]
    dsimp only
    rw [hhex]
    dsimp only
    rw [if_neg (not_not.mpr hlength), if_pos hsigned]

theorem utf8Bytes_append (s t : Text) : utf8Bytes (s ++ t) = utf8Bytes s ++ utf8Bytes t :=
  List.flatMap_append

/-- The message of a record names the signing time, but of the rest only the joined text. -/
theorem content_eq_iff (hid : r'.id = r.id) :
    r'.content nethash = r.content nethash ↔
      r'.seq = r.seq ∧
      joinAddrs r'.addrs ++ r'.relay.getD "" = joinAddrs r.addrs ++ r.relay.getD "" := by
  unfold content
  rw [hid]
  constructor
  · intro h
    simp only [List.append_assoc, List.append_cancel_left_eq] at h
    obtain ⟨hseq, htext⟩ := List.append_inj h ((leBytes_length 8 _).trans (leBytes_length 8 _).symm)
    rw [← utf8Bytes_append, ← utf8Bytes_append] at htext
    exact ⟨u64le_injective hseq, Text.utf8Bytes_injective htext⟩
  · rintro ⟨hseq, htext⟩
    simp only [List.append_assoc, ← utf8Bytes_append]
    rw [hseq, htext]

/-- The addresses and the relay of a record cannot be told from others by the message. -/
def Unsplit (r : SignedAddr) : Prop :=
  r.addrs = [] ∧ ∃ relay, r.relay = some relay ∧ relay ≠ "" ∧
    ∀ a : Text, a.toList <+: relay.toList → isPublicAddr a = false

/-- A record with the same message, the same signature and admissible addresses passes too. -/
theorem Verified.retold {now expireSecs : UInt64} {key : Bytes}
    (h : Verified E P nethash now expireSecs key r) {addrs : List Text} {relay : Option Text}
    (hfew : addrs.length ≤ maxAddrs) (hshown : ∀ a ∈ addrs, isPublicAddr a = true)
    (htext : joinAddrs addrs ++ relay.getD "" = joinAddrs r.addrs ++ r.relay.getD "") :
    Verified E P nethash now expireSecs key { r with addrs := addrs, relay := relay } := by
  have hcontent : content nethash { r with addrs := addrs, relay := relay } = r.content nethash :=
    (@content_eq_iff nethash r { r with addrs := addrs, relay := relay } rfl).mpr ⟨rfl, htext⟩
  obtain ⟨sig, hhex, hlength, hsigned⟩ := h.signed
  refine ⟨h.version, hfew, h.window, hshown, h.parsed, sig, hhex, hlength, ?_⟩
  unfold message
  rw [hcontent]
  exact hsigned

/-- A record that is not unsplit has a sibling with other addresses or another relay. -/
theorem Verified.exists_other {now expireSecs : UInt64} {key : Bytes}
    (h : Verified E P nethash now expireSecs key r) (hsplit : ¬ Unsplit r) :
    ∃ addrs relay,
      Verified E P nethash now expireSecs key { r with addrs := addrs, relay := relay } ∧
      ¬ (addrs = r.addrs ∧ relay = r.relay) := by
  have hnone : ∀ a ∈ ([] : List Text), isPublicAddr a = true := List.forall_mem_nil _
  by_cases haddrs : r.addrs = []
  · cases hrelay : r.relay with
    | none =>
        refine ⟨[], some "", h.retold (Nat.zero_le _) hnone ?_, ?_⟩
        · rw [haddrs, hrelay]
          rfl
        · rintro ⟨-, hsame⟩
          cases hsame
    | some relay =>
        by_cases hempty : relay = ""
        · refine ⟨[], none, h.retold (Nat.zero_le _) hnone ?_, ?_⟩
          · rw [haddrs, hrelay, hempty]
            rfl
          · rintro ⟨-, hsame⟩
            cases hsame
        · -- the relay begins with an address, which is cut off
          have hfront : ∃ a : Text, a.toList <+: relay.toList ∧ isPublicAddr a = true := by
            by_contra hno
            refine hsplit ⟨haddrs, relay, hrelay, hempty, fun a ha => ?_⟩
            by_contra hshown
            exact hno ⟨a, ha, (Bool.not_eq_false _).mp hshown⟩
          obtain ⟨a, ⟨rest, hrest⟩, hshown⟩ := hfront
          refine ⟨[a], some ⟨rest⟩, h.retold (Nat.le_add_left 1 7) ?_ ?_, ?_⟩
          · intro b hb
            rw [List.mem_singleton.mp hb]
            exact hshown
          · rw [haddrs, hrelay]
            exact congrArg Text.mk ((congrArg (· ++ rest) (joinAddrs_singleton a)).trans hrest)
          · rintro ⟨hsame, -⟩
            rw [haddrs] at hsame
            cases hsame
  · -- the addresses move into the relay
    refine ⟨[], some (joinAddrs r.addrs ++ r.relay.getD ""), h.retold (Nat.zero_le _) hnone rfl, ?_⟩
    rintro ⟨hsame, -⟩
    exact haddrs hsame.symm

/-- An unsplit record is the only one with its message. -/
theorem Unsplit.unique (h : Unsplit r) (hshown : ∀ a ∈ r'.addrs, isPublicAddr a = true)
    (htext : joinAddrs r'.addrs ++ r'.relay.getD "" = joinAddrs r.addrs ++ r.relay.getD "") :
    r'.addrs = r.addrs ∧ r'.relay = r.relay := by
  obtain ⟨haddrs, relay, hrelay, hempty, hfront⟩ := h
  rw [haddrs, hrelay] at htext ⊢
  cases hr' : r'.addrs with
  | nil =>
      rw [hr'] at htext
      have hsame : r'.relay.getD "" = relay := htext
      refine ⟨rfl, ?_⟩
      cases hrelay' : r'.relay with
      | none =>
          rw [hrelay'] at hsame
          exact absurd hsame.symm hempty
      | some relay' =>
          rw [hrelay'] at hsame
          exact congrArg some hsame
  | cons a rest =>
      have hfirst : a.toList <+: (joinAddrs (a :: rest)).toList := by
        cases rest with
        | nil => rw [joinAddrs_singleton]
        | cons b rest =>
            change a.toList <+: [','].intercalate (a.toList :: b.toList :: rest.map Text.toList)
            rw [List.intercalate_cons_cons, List.append_assoc]
            exact List.prefix_append _ _
      rw [hr'] at htext hshown
      have hwhole : (joinAddrs (a :: rest)).toList <+: relay.toList :=
        ⟨(r'.relay.getD "").toList, congrArg Text.toList htext⟩
      have hprivate := hfront a (hfirst.trans hwhole)
      rw [hshown a List.mem_cons_self] at hprivate
      cases hprivate

/-- The signature of a record stands for its content only when the record has no address, and a
relay that does not begin with one.  The key is assumed to sign one message with a signature, and
no other message to have the hash of this one. -/
theorem content_bound_iff {now expireSecs : UInt64} {key : Bytes}
    (hverify : r.verify E P nethash now expireSecs = .ok key)
    (hsigned : ∀ m m' sig, E.verify key m sig = true → E.verify key m' sig = true → m = m')
    (hhash : ∀ m, P.sha256 m = P.sha256 (r.content nethash) → m = r.content nethash) :
    (∀ (r' : SignedAddr) (now' expireSecs' : UInt64), r'.id = r.id → r'.signature = r.signature →
      (r'.verify E P nethash now' expireSecs').isOk →
      r'.addrs = r.addrs ∧ r'.relay = r.relay ∧ r'.seq = r.seq) ↔ Unsplit r := by
  have h := verify_eq_ok.mp hverify
  constructor
  · intro hbound
    by_contra hsplit
    obtain ⟨addrs, relay, hverified, hother⟩ := h.exists_other hsplit
    have hsame := hbound { r with addrs := addrs, relay := relay } now expireSecs rfl rfl
      (by rw [verify_eq_ok.mpr hverified]; rfl)
    exact hother ⟨hsame.1, hsame.2.1⟩
  · intro hunsplit r' now' expireSecs' hid hsignature hok
    obtain ⟨key', hverify'⟩ := exists_ok_of_isOk hok
    have h' := verify_eq_ok.mp hverify'
    obtain ⟨sig, hhex, -, hsig⟩ := h.signed
    obtain ⟨sig', hhex', -, hsig'⟩ := h'.signed
    have hkey : key' = key := by
      have hparsed := h'.parsed
      rw [hid, h.parsed] at hparsed
      exact (Except.ok.inj hparsed).symm
    rw [hsignature, hhex] at hhex'
    cases hhex'
    rw [hkey] at hsig'
    have hcontent := hhash _ (hsigned _ _ sig hsig' hsig)
    obtain ⟨hseq, htext⟩ := (content_eq_iff hid).mp hcontent
    obtain ⟨haddrs, hrelay⟩ := hunsplit.unique h'.shown htext
    exact ⟨haddrs, hrelay, hseq⟩

/-- Keys of which one has signed one message. -/
def signedOnce (key message sig : Bytes) : EndpointKeys where
  parse text :=
    match Hex.decode text with
    | .ok key => .ok key
    | .error e => .error e.display
  verify k m s := k == key && m == message && s == sig

/-- The real hash of one content, and contents of more than 32 bytes elsewhere. -/
def hashedOnce (content : Bytes) : Primitives :=
  { Reference.primitives with
    sha256 := fun m => if m = content then Reference.sha256 m else m ++ List.replicate 33 0 }

theorem signedOnce_verify {key message sig k m s : Bytes}
    (h : (signedOnce key message sig).verify k m s = true) : m = message := by
  simp only [signedOnce, Bool.and_eq_true, beq_iff_eq] at h
  exact h.1.2

theorem hashedOnce_sha256 {content m : Bytes} (hlength : (Reference.sha256 content).length = 32)
    (h : (hashedOnce content).sha256 m = (hashedOnce content).sha256 content) : m = content := by
  by_contra hne
  change (if m = content then _ else _) = (if content = content then _ else _) at h
  rw [if_neg hne, if_pos rfl] at h
  have hsize := congrArg List.length h
  rw [hlength, List.length_append, List.length_replicate] at hsize
  omega

def dialledNethash : Text := "b0987b45a3a754da1362bc6818548cb34f65750c9ac81d28c93e7545224df2d2"

/-- A node that is dialled at one address, as it has signed its record. -/
def dialledAddr : SignedAddr where
  id := "03a107bff3ce10be1d70dd18e74bc09967e4d6309ba50d5f1ddc8664125531b8"
  addrs := ["1.2.3.4:4001"]
  seq := 1750000000
  signature :=
    "cb53497cf1751ed8c7e92f624402b8032dc6f1c236fc8c22d41ba347e8f23c4807e02b00e2f26fb09fa394c8fd5ecb3633653116172eabb341be58b22ce9ec05"

/-- The same record with the last digit of the port taken for the relay. -/
def redialledAddr : SignedAddr :=
  { dialledAddr with addrs := ["1.2.3.4:400"], relay := some "1" }

def dialledPrimitives : Primitives := hashedOnce (dialledAddr.content dialledNethash)

def dialledKeys : EndpointKeys :=
  signedOnce ((Hex.decode dialledAddr.id).toOption.getD [])
    (Reference.sha256 (dialledAddr.content dialledNethash))
    ((Hex.decode dialledAddr.signature).toOption.getD [])

theorem dialledAddr_verify :
    (dialledAddr.verify dialledKeys dialledPrimitives dialledNethash 1750000100 86400).isOk ∧
    (redialledAddr.verify dialledKeys dialledPrimitives dialledNethash 1750000100 86400).isOk ∧
    (Reference.sha256 (dialledAddr.content dialledNethash)).length = 32 := by
  decide +kernel

theorem dialledPrimitives_sha256 (m : Bytes)
    (h : dialledPrimitives.sha256 m =
      dialledPrimitives.sha256 (dialledAddr.content dialledNethash)) :
    m = dialledAddr.content dialledNethash :=
  hashedOnce_sha256 dialledAddr_verify.2.2 h

theorem dialledKeys_signed (m m' sig : Bytes) {key : Bytes}
    (h : dialledKeys.verify key m sig = true) (h' : dialledKeys.verify key m' sig = true) :
    m = m' :=
  (signedOnce_verify h).trans (signedOnce_verify h').symm

theorem content_bound_iff_dialled :
    (∀ (r' : SignedAddr) (now' expireSecs' : UInt64), r'.id = dialledAddr.id →
      r'.signature = dialledAddr.signature →
      (r'.verify dialledKeys dialledPrimitives dialledNethash now' expireSecs').isOk →
      r'.addrs = dialledAddr.addrs ∧ r'.relay = dialledAddr.relay ∧ r'.seq = dialledAddr.seq) ↔
      Unsplit dialledAddr := by
  obtain ⟨key, hkey⟩ := exists_ok_of_isOk dialledAddr_verify.1
  exact content_bound_iff hkey (fun m m' sig => dialledKeys_signed m m' sig)
    dialledPrimitives_sha256

/-- A relaying node can take the last digit of a port for the relay of the record. -/
theorem redialled_verifies :
    (∀ key m m' sig, dialledKeys.verify key m sig = true → dialledKeys.verify key m' sig = true →
      m = m') ∧
    (∀ m, dialledPrimitives.sha256 m =
      dialledPrimitives.sha256 (dialledAddr.content dialledNethash) →
      m = dialledAddr.content dialledNethash) ∧
    redialledAddr.id = dialledAddr.id ∧ redialledAddr.signature = dialledAddr.signature ∧
    (dialledAddr.verify dialledKeys dialledPrimitives dialledNethash 1750000100 86400).isOk ∧
    (redialledAddr.verify dialledKeys dialledPrimitives dialledNethash 1750000100 86400).isOk ∧
    redialledAddr.addrs ≠ dialledAddr.addrs :=
  ⟨fun _ m m' sig => dialledKeys_signed m m' sig, dialledPrimitives_sha256, rfl, rfl,
    dialledAddr_verify.1, dialledAddr_verify.2.1, by decide⟩

end SignedAddr

end P2p

end SthCore
