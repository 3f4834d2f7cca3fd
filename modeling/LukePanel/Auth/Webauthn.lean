import LukePanel.Auth.CborPanics
import LukePanel.Library.Base64
import LukePanel.Library.GoStrings
import LukePanel.Library.Utf8

/-! # Registering a passkey

`RegisterPasskey` of `internal/auth/webauthn.go`. The attestation object and the key in the
authenticator data are decoded from bytes that the browser sends. -/
namespace LukePanel.Auth.Webauthn
open LukePanel.Library LukePanel.Library.Outcome LukePanel.Library.GoStrings
open LukePanel.Library.Base64 (encodeURLString decodeURLString)
open LukePanel.Library.Cbor (Item bigEndian At)
open LukePanel.Auth.Cbor

structure ClientData where
  type : String
  challenge : String
  origin : String

/-- What the code takes from elsewhere: SHA-256, `json.Unmarshal` and the clock. -/
structure Env where
  sha256 : List UInt8 → List UInt8
  unmarshal : List UInt8 → Option ClientData
  now : ℕ

structure PasskeyCreationResponse where
  id : String
  rawID : String
  clientDataJSON : String
  attestationObject : String

/-- `PasskeyCredential` as it is registered. Its name is cut at a byte. -/
structure Registration where
  id : String
  name : List UInt8
  publicX : String
  publicY : String
  signCount : ℕ
  createdAt : ℕ

variable (env : Env) (rt : Runtime)

def firstNonEmpty (values : List String) : String :=
  (values.find? fun v => trimSpace v ≠ "").getD ""

def decodeBase64URL (value : String) : Option (List UInt8) :=
  let value := trimSpace value
  if value = "" then none
  else decodeURLString (String.ofList (value.toList.rdropWhile (· = '=')))

def normalizeOrigin (value : String) : String :=
  String.ofList ((toLower (trimSpace value)).toList.rdropWhile (· = '/'))

def verifyClientData (raw : List UInt8) (expectedType challenge origin : String) : Outcome Unit :=
  match env.unmarshal raw with
  | none => .error "clientDataJSON 无效"
  | some data =>
    if data.type ≠ expectedType then .error "Passkey 操作类型不匹配"
    else if data.challenge ≠ challenge then .error "Passkey 挑战已失效"
    else if normalizeOrigin data.origin ≠ normalizeOrigin origin then .error "Passkey 来源校验失败"
    else .ok ()

/-- `m[key]` -/
def get (m : List (Key × Value)) (key : Key) : Option Value := (m.find? fun e => e.1 = key).map Prod.snd

def mapBytes (m : List (Key × Value)) (key : Key) : Option (List UInt8) :=
  match get m key with
  | some (.bytes b) => some b
  | _ => none

/-- `mapInt`, which is 0 where there is no integer. -/
def mapInt (m : List (Key × Value)) (key : Key) : ℤ :=
  match get m key with
  | some (.int n) => n
  | _ => 0

/-- `parseAttestedAuthData` up to the key: the credential's id, the counter and where the key
lies. -/
def parseHeader (data : List UInt8) (rpID : String) : Outcome (List UInt8 × ℕ × ℕ) :=
  if data.length < 55 then .error "Passkey authenticatorData 长度不足" else do
    let hash ← slice data 0 32
    if hash ≠ env.sha256 (Utf8.encode rpID) then .error "Passkey 域名校验失败" else do
      let flags ← index data 32
      if flags &&& 0x01 = 0 ∨ flags &&& 0x04 = 0 ∨ flags &&& 0x40 = 0 then
        .error "Passkey 注册必须完成用户确认、本机验证并包含凭据"
      else do
        let signCount ← slice data 33 37
        let offset := 37 + 16
        if data.length < offset + 2 then .error "Passkey 凭据数据不完整" else do
          let length ← slice data offset (offset + 2)
          let idLen := bigEndian length
          let offset := offset + 2
          if idLen < 1 ∨ 1024 < idLen ∨ data.length < offset + idLen then
            .error "Passkey 凭据 ID 无效"
          else do
            let credentialID ← slice data offset (offset + idLen)
            return (credentialID, bigEndian signCount, offset + idLen)

/-- The COSE key: an ES256 public key. -/
def parseKey (value : Value) : Outcome (List UInt8 × List UInt8) :=
  match value with
  | .map key =>
    let kty := mapInt key (.int 1)
    let alg := mapInt key (.int 3)
    let crv := mapInt key (.int (-1))
    match mapBytes key (.int (-2)), mapBytes key (.int (-3)) with
    | some x, some y =>
      if kty ≠ 2 ∨ alg ≠ -7 ∨ crv ≠ 1 ∨ x.length ≠ 32 ∨ y.length ≠ 32 then
        .error "当前仅支持 ES256 Passkey"
      else .ok (x, y)
    | _, _ => .error "当前仅支持 ES256 Passkey"
  | _ => .error "Passkey 公钥结构无效"

def parseAttestedAuthData (data : List UInt8) (rpID : String) :
    Outcome (List UInt8 × List UInt8 × List UInt8 × ℕ) := do
  let (credentialID, signCount, offset) ← parseHeader env data rpID
  let (value, _) ← wrapError "解析 Passkey 公钥失败: " (decodeCBOR rt data offset)
  let (x, y) ← parseKey value
  return (credentialID, x, y, signCount)

/-- The checks before the attestation object is looked at. -/
def checkClient (response : PasskeyCreationResponse) (challenge origin : String) : Outcome Unit := do
  let clientRaw ← ofOption "客户端数据格式错误" (decodeBase64URL response.clientDataJSON)
  verifyClientData env clientRaw "webauthn.create" challenge origin

/-- `root["authData"]` of the decoded attestation object. -/
def authDataOf (value : Value) : Outcome (List UInt8) :=
  match value with
  | .map root => ofOption "Passkey 缺少 authenticatorData" (mapBytes root (.text (Utf8.encode "authData")))
  | _ => .error "Passkey 注册对象无效"

def credentialName (name : String) : Outcome (List UInt8) :=
  let name := trimSpace name
  let name := Utf8.encode (if name = "" then "此设备 Passkey" else name)
  if 80 < name.length then slice name 0 80 else .ok name

def registerPasskey (response : PasskeyCreationResponse) (challenge origin rpID name : String) :
    Outcome Registration := do
  checkClient env response challenge origin
  let attestation ← ofOption "Passkey 注册数据格式错误" (decodeBase64URL response.attestationObject)
  let (value, _) ← wrapError "解析 Passkey 注册数据失败: " (decodeCBOR rt attestation 0)
  let authData ← authDataOf value
  let (credentialID, x, y, signCount) ← parseAttestedAuthData env rt authData rpID
  let rawID ← ofOption "Passkey ID 无效" (decodeBase64URL (firstNonEmpty [response.rawID, response.id]))
  if rawID ≠ credentialID then .error "Passkey ID 与注册数据不一致" else do
    let name ← credentialName name
    return { id := encodeURLString credentialID, name, publicX := encodeURLString x,
             publicY := encodeURLString y, signCount, createdAt := env.now }

/-! ## The authenticator data in an item -/

variable {env rt} {item : Item} {v : Value} {data : List UInt8}

def untagged : Item → Item
  | .tagged _ item => untagged item
  | item => item

/-- The byte string that the item, a map, holds last under a text. -/
def bytesUnder (name : List UInt8) (item : Item) : Option (List UInt8) :=
  match untagged item with
  | .map entries =>
    match entries.reverse.find? fun e => keyOf e.1 = some (.text name) with
    | some e =>
      match untagged e.2 with
      | .bytes b => some b
      | _ => none
    | none => none
  | _ => none

theorem decoded_untagged (rt : Runtime) (item : Item) : decoded rt (untagged item) = decoded rt item := by
  induction item using Item.inductionOn with
  | tagged tag item ih => exact ih
  | _ => rfl

theorem get_cons (d : Key × Value) (m : List (Key × Value)) (key : Key) :
    get (d :: m) key = if d.1 = key then some d.2 else get m key := by
  unfold get
  rw [List.find?_cons]
  by_cases hd : d.1 = key
  · simp [hd]
  · simp [hd]

theorem get_append (m m' : List (Key × Value)) (key : Key) :
    get (m ++ m') key = (get m key).or (get m' key) := by
  rw [get, List.find?_append, get, get]
  cases m.find? fun e => e.1 = key <;> rfl

theorem get_eq_none {m : List (Key × Value)} {key : Key} (h : key ∉ m.map Prod.fst) : get m key = none := by
  rw [get, Option.map_eq_none_iff, List.find?_eq_none]
  intro d hd heq
  exact h (of_decide_eq_true heq ▸ List.mem_map_of_mem hd)

theorem get_replaced (m : List (Key × Value)) (key key' : Key) (v : Value) :
    get (m.map fun e => if e.1 = key then (key, v) else e) key' =
      if key' = key ∧ key ∈ m.map Prod.fst then some v else get m key' := by
  induction m with
  | nil => simp
  | cons d m ih =>
    rw [List.map_cons, get_cons, get_cons, ih]
    by_cases hd : d.1 = key
    · by_cases hkey : key' = key
      · simp [hd, hkey]
      · simp [hd, hkey, Ne.symm hkey]
    · by_cases hkey : key' = key
      · subst hkey
        have hmem : key' ∈ (d :: m).map Prod.fst ↔ key' ∈ m.map Prod.fst := by
          rw [List.map_cons, List.mem_cons]
          exact or_iff_right (Ne.symm hd)
        simp only [if_neg hd, hmem]
      · simp [hd, hkey]

theorem get_assign (m : List (Key × Value)) (key key' : Key) (v : Value) :
    get (assign m key v) key' = if key' = key then some v else get m key' := by
  unfold assign
  split
  · rename_i hmem
    rw [get_replaced]
    simp [hmem]
  · rename_i hmem
    rw [get_append, get_cons]
    by_cases hkey : key' = key
    · rw [hkey, get_eq_none hmem]
      simp
    · simp [hkey, Ne.symm hkey, get]

/-- What was assigned last stays. -/
theorem get_assigned (m pairs : List (Key × Value)) (key : Key) :
    get (assigned m pairs) key = (get pairs.reverse key).or (get m key) := by
  induction pairs generalizing m with
  | nil => rfl
  | cons d pairs ih =>
    rw [assigned, List.foldl_cons, ← assigned, ih, get_assign, List.reverse_cons, get_append]
    cases get pairs.reverse key with
    | some v => rfl
    | none =>
      rw [get_cons]
      by_cases hkey : key = d.1
      · simp [hkey]
      · simp [hkey, Ne.symm hkey, get]

/-- An integer may be decoded to another, but to no text. -/
theorem keyOf_eq_text_iff {d : Key} {t : List UInt8} (h : decoded rt item = .ok v)
    (hd : v.key? = some d) : keyOf item = some (.text t) ↔ d = .text t := by
  induction item using Item.inductionOn generalizing v with
  | unsigned n | negative n | text b =>
    cases h
    cases hd
    simp [keyOf]
  | tagged tag item ih => exact ih h hd
  | simple n =>
    obtain ⟨-, key, hv, hkey, htext⟩ := simple_of_decoded h
    rw [hv, Option.some.injEq] at hd
    rw [hkey, hd, Option.some.injEq]
  | float k b => exact absurd h float_not_decoded
  | bytes b =>
    cases h
    cases hd
  | array items ih =>
    obtain ⟨_, -, rfl⟩ := array_of_decoded h
    cases hd
  | map entries ih =>
    obtain ⟨_, -, rfl⟩ := map_of_decoded h
    cases hd

theorem untagged_ne_tagged (item item' : Item) (tag : ℕ) : untagged item ≠ .tagged tag item' := by
  induction item using Item.inductionOn with
  | tagged tag item ih => exact ih
  | _ => simp [untagged]

theorem untagged_eq_bytes_iff {b : List UInt8} (h : decoded rt item = .ok v) :
    untagged item = .bytes b ↔ v = .bytes b := by
  rw [← decoded_untagged] at h
  cases hu : untagged item with
  | tagged tag item' => exact absurd hu (untagged_ne_tagged _ _ _)
  | bytes b' =>
    rw [hu] at h
    cases h
    simp
  | unsigned n | negative n | text b =>
    rw [hu] at h
    cases h
    simp
  | array items =>
    rw [hu] at h
    obtain ⟨_, -, rfl⟩ := array_of_decoded h
    simp
  | map entries =>
    rw [hu] at h
    obtain ⟨_, -, rfl⟩ := map_of_decoded h
    simp
  | simple n =>
    rw [hu] at h
    obtain ⟨-, key, hv, -⟩ := simple_of_decoded h
    cases v <;> cases hv <;> simp
  | float k b =>
    rw [hu] at h
    exact absurd h float_not_decoded

theorem get_reverse_iff {entries : List (Item × Item)} {pairs : List (Key × Value)}
    (name b : List UInt8) (h : List.Forall₂ (Entry rt) entries pairs) :
    (∃ e, (entries.find? fun e => keyOf e.1 = some (.text name)) = some e ∧ untagged e.2 = .bytes b) ↔
      get pairs (.text name) = some (.bytes b) := by
  induction h with
  | nil => simp [get]
  | @cons e d entries pairs he hrest ih =>
    obtain ⟨⟨k, hk, hkey⟩, hv⟩ := he
    rw [get_cons, List.find?_cons]
    by_cases hd : d.1 = .text name
    · rw [if_pos hd]
      simp only [(keyOf_eq_text_iff hk hkey).mpr hd, decide_true, Option.some.injEq, exists_eq_left']
      exact untagged_eq_bytes_iff hv
    · rw [if_neg hd, ← ih]
      simp only [mt (keyOf_eq_text_iff hk hkey).mp hd, decide_false]

theorem mapBytes_eq_some_iff {m : List (Key × Value)} {key : Key} {b : List UInt8} :
    mapBytes m key = some b ↔ get m key = some (.bytes b) := by
  unfold mapBytes
  cases h : get m key with
  | none => simp
  | some v => cases v <;> simp

/-- The authenticator data of a decoded item is what the item holds. -/
theorem authDataOf_iff {b : List UInt8} (h : decoded rt item = .ok v) :
    authDataOf v = .ok b ↔ bytesUnder (Utf8.encode "authData") item = some b := by
  rw [← decoded_untagged] at h
  unfold authDataOf bytesUnder
  generalize Utf8.encode "authData" = name
  cases hu : untagged item with
  | map entries =>
    rw [hu] at h
    obtain ⟨m, hm, rfl⟩ := map_of_decoded h
    obtain ⟨pairs, hpairs, rfl⟩ := decodedEntries_eq_ok.mp hm
    have hget := get_reverse_iff name b (List.forall₂_reverse_iff.mpr hpairs)
    have hnone : get [] (.text name) = none := rfl
    dsimp only
    rw [ofOption_eq_ok, mapBytes_eq_some_iff, get_assigned, hnone, Option.or_none, ← hget]
    constructor
    · rintro ⟨e, he, hb⟩
      rw [he]
      dsimp only
      rw [hb]
    · intro hb
      split at hb
      · rename_i e he
        split at hb
        · rename_i b' hb'
          cases hb
          exact ⟨e, he, hb'⟩
        · cases hb
      · cases hb
  | array items =>
    rw [hu] at h
    obtain ⟨_, -, rfl⟩ := array_of_decoded h
    simp
  | unsigned n | negative n | text b | bytes b =>
    rw [hu] at h
    cases h
    simp
  | tagged tag item' => exact absurd hu (untagged_ne_tagged _ _ _)
  | simple n =>
    rw [hu] at h
    obtain ⟨-, key, hv, -⟩ := simple_of_decoded h
    cases v <;> cases hv <;> simp
  | float k b =>
    rw [hu] at h
    exact absurd h float_not_decoded

/-! ## Nothing but the decoder panics -/

theorem parseHeader_returns (data : List UInt8) (rpID : String) : (parseHeader env data rpID).Returns := by
  unfold parseHeader
  refine returns_ite.mpr fun hlen => ?_
  rw [show (32 : ℕ) = 0 + 32 from rfl, slice_eq (by omega), ok_bind]
  refine returns_ite.mpr fun _ => ?_
  rw [index_eq (by omega), ok_bind]
  refine returns_ite.mpr fun _ => ?_
  rw [show (37 : ℕ) = 33 + 4 from rfl, slice_eq (by omega), ok_bind]
  refine returns_ite.mpr fun _ => ?_
  rw [slice_eq (by omega), ok_bind]
  refine returns_ite.mpr fun hid => ?_
  rw [slice_eq (by omega), ok_bind]
  exact returns_ok _

theorem parseKey_returns (value : Value) : (parseKey value).Returns := by
  unfold parseKey
  split
  · split
    · exact returns_ite.mpr fun _ => returns_ok _
    · exact returns_error _
  · exact returns_error _

theorem checkClient_returns (response : PasskeyCreationResponse) (challenge origin : String) :
    (checkClient env response challenge origin).Returns := by
  refine returns_bind.mpr ⟨returns_ofOption _ _, fun raw _ => ?_⟩
  unfold verifyClientData
  split
  · exact returns_error _
  · exact returns_ite.mpr fun _ => returns_ite.mpr fun _ => returns_ite.mpr fun _ => returns_ok _

theorem authDataOf_returns (value : Value) : (authDataOf value).Returns := by
  unfold authDataOf
  split
  · exact returns_ofOption _ _
  · exact returns_error _

theorem credentialName_returns (name : String) : (credentialName name).Returns := by
  unfold credentialName
  dsimp only
  generalize Utf8.encode (if trimSpace name = "" then "此设备 Passkey" else trimSpace name) = bytes
  split
  · rw [show (80 : ℕ) = 0 + 80 from rfl, slice_eq (by omega)]
    exact returns_ok _
  · exact returns_ok _

theorem parseAttestedAuthData_returns_iff {rpID : String} :
    (parseAttestedAuthData env rt data rpID).Returns ↔ ∀ id count offset,
      parseHeader env data rpID = .ok (id, count, offset) → Harmless rt data offset := by
  unfold parseAttestedAuthData
  rw [returns_bind, and_iff_right (parseHeader_returns data rpID)]
  constructor
  · intro h id count offset hheader
    have hkey := (returns_bind.mp (h _ hheader)).1
    exact decodeCBOR_returns_iff.mp (returns_wrapError.mp hkey)
  · rintro h ⟨id, count, offset⟩ hheader
    have hkey := decodeCBOR_returns_iff.mpr (h id count offset hheader)
    exact returns_bind.mpr ⟨returns_wrapError.mpr hkey, fun _ _ =>
      returns_bind.mpr ⟨parseKey_returns _, fun _ _ => returns_ok _⟩⟩

/-- Nothing harmful is visited in an attestation object that is looked at, nor in the key of its
authenticator data. -/
def AttestsHarmlessly (env : Env) (rt : Runtime) (response : PasskeyCreationResponse)
    (challenge origin rpID : String) : Prop :=
  checkClient env response challenge origin = .ok () →
    ∀ attestation, decodeBase64URL response.attestationObject = some attestation →
      Harmless rt attestation 0 ∧
      ∀ item q authData, At attestation 0 item q → Readable item →
        bytesUnder (Utf8.encode "authData") item = some authData →
        ∀ id count offset, parseHeader env authData rpID = .ok (id, count, offset) →
          Harmless rt authData offset

theorem registerPasskey_returns_iff {response : PasskeyCreationResponse}
    {challenge origin rpID name : String} :
    (registerPasskey env rt response challenge origin rpID name).Returns ↔
      AttestsHarmlessly env rt response challenge origin rpID := by
  have hrest : ∀ credentialID x y signCount, (do
      let rawID ← ofOption "Passkey ID 无效" (decodeBase64URL (firstNonEmpty [response.rawID, response.id]))
      if rawID ≠ credentialID then .error "Passkey ID 与注册数据不一致" else do
        let name ← credentialName name
        return ({ id := encodeURLString credentialID, name, publicX := encodeURLString x,
                  publicY := encodeURLString y, signCount, createdAt := env.now } : Registration)).Returns :=
    fun _ _ _ _ => returns_bind.mpr ⟨returns_ofOption _ _, fun _ _ =>
      returns_ite.mpr fun _ => returns_bind.mpr ⟨credentialName_returns name, fun _ _ => returns_ok _⟩⟩
  unfold registerPasskey AttestsHarmlessly
  rw [returns_bind, and_iff_right (checkClient_returns response challenge origin)]
  constructor
  · intro h hclient attestation hatt
    have h := (returns_bind.mp (h _ hclient)).2 attestation (ofOption_eq_ok.mpr hatt)
    obtain ⟨hdecoder, h⟩ := returns_bind.mp h
    have hharmless := decodeCBOR_returns_iff.mp (returns_wrapError.mp hdecoder)
    refine ⟨hharmless, fun item q authData hat hread hbytes => ?_⟩
    obtain hpanic | ⟨v, hv, -⟩ := decodeCBOR_of_readable rt hat hread
    · exact absurd hpanic (returns_wrapError.mp hdecoder)
    have hdecoded := hv
    rw [decodeCBOR_of_at hat] at hdecoded
    obtain ⟨w, hw, heq⟩ := bind_eq_ok hdecoded
    cases heq
    have h := (returns_bind.mp (h _ (wrapError_eq_ok.mpr hv))).2 authData ((authDataOf_iff hw).mpr hbytes)
    exact parseAttestedAuthData_returns_iff.mp (returns_bind.mp h).1
  · rintro h ⟨⟩ hclient
    refine returns_bind.mpr ⟨returns_ofOption _ _, fun attestation hatt => ?_⟩
    obtain ⟨hharmless, h⟩ := h hclient attestation (ofOption_eq_ok.mp hatt)
    have hdecoder := decodeCBOR_returns_iff.mpr hharmless
    refine returns_bind.mpr ⟨returns_wrapError.mpr hdecoder, fun r hr => ?_⟩
    obtain ⟨v, next⟩ := r
    have hv := wrapError_eq_ok.mp hr
    obtain ⟨item, hat, hread⟩ := decodeCBOR_sound _ _ _ hv
    rw [decodeCBOR_of_at hat] at hv
    obtain ⟨w, hw, heq⟩ := bind_eq_ok hv
    cases heq
    refine returns_bind.mpr ⟨authDataOf_returns v, fun authData hauth => ?_⟩
    have hheaders := h item _ authData hat hread ((authDataOf_iff hw).mp hauth)
    exact returns_bind.mpr ⟨parseAttestedAuthData_returns_iff.mpr hheaders,
      fun _ _ => hrest _ _ _ _⟩

/-- **Exactly when nothing harmful is visited, the decoder and the registration return.** -/
theorem attestation_returns_iff (env : Env) (rt : Runtime) (data : List UInt8) (offset : ℕ)
    (response : PasskeyCreationResponse) (challenge origin rpID name : String) :
    ((decodeCBOR rt data offset).Returns ↔ Harmless rt data offset) ∧
      ((registerPasskey env rt response challenge origin rpID name).Returns ↔
        AttestsHarmlessly env rt response challenge origin rpID) :=
  ⟨decodeCBOR_returns_iff, registerPasskey_returns_iff⟩

/-- A map with an empty byte string for its key. -/
def byteStringKey : List UInt8 := [0xa1, 0x40, 0xf6]

def creation : PasskeyCreationResponse where
  id := "AA"
  rawID := "AA"
  clientDataJSON := "e30"
  attestationObject := "oUD2"

def browser : Env where
  sha256 _ := List.replicate 32 0
  unmarshal _ := some ⟨"webauthn.create", "c", "https://panel.example"⟩
  now := 0

theorem creation_attests : decodeBase64URL creation.attestationObject = some byteStringKey := by
  decide +kernel

theorem byteStringKey_panics : decodeCBOR wide byteStringKey 0 = .panic := by
  rfl

/-- A map whose key is a byte string ends the program. -/
theorem registration_panics : ¬ ∀ (env : Env) (rt : Runtime) (data : List UInt8) (offset : ℕ)
    (response : PasskeyCreationResponse) (challenge origin rpID name : String),
    (decodeCBOR rt data offset).Returns ∧
      (registerPasskey env rt response challenge origin rpID name).Returns := by
  intro h
  obtain ⟨-, hreg⟩ := h browser wide byteStringKey 0 creation "c" "https://panel.example" "panel.example" ""
  have hclient : checkClient browser creation "c" "https://panel.example" = .ok () := by decide +kernel
  rw [registerPasskey, hclient, ok_bind, creation_attests] at hreg
  exact hreg (by rw [ofOption, ok_bind, byteStringKey_panics]; rfl)

end LukePanel.Auth.Webauthn
