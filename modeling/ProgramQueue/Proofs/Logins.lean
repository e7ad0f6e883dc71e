import ProgramQueue.Config
import ProgramQueue.Proofs.Disciplines

/-!
# Logins as they are sent

A login id of the configuration is read from base 64 and written in base 64 again before it
is sent, while the header of a request has it as it is configured.  Both are the same, since
only canonical texts are read.  What the configuration is found to be wrong about is what
keeps it from being used.
-/

namespace ProgramQueue

/-! ## Canonical base 64 -/

namespace Base64

variable {c : Char} {v : Nat} {chars : List Char} {bytes : List UInt8}

/-- The value of a character from a range of them, counted from a first value. -/
theorem ofNat_of_between {low high : Char} (first : Nat) (h : low ≤ c ∧ c ≤ high)
    (hv : c.toNat - low.toNat + first = v) :
    first ≤ v ∧ v ≤ high.toNat - low.toNat + first ∧ Char.ofNat (low.toNat + (v - first)) = c := by
  simp only [Char.le_def, UInt32.le_iff_toNat_le] at h
  obtain ⟨hlow, hhigh⟩ := h
  change low.toNat ≤ c.toNat at hlow
  change c.toNat ≤ high.toNat at hhigh
  refine ⟨by omega, by omega, ?_⟩
  have hchar : low.toNat + (v - first) = c.toNat := by omega
  rw [hchar, Char.ofNat_toNat]

/-- A character is the digit of its value. -/
theorem digit_of_value (h : value? c = some v) : v < 64 ∧ digit v = c := by
  unfold value? at h
  split at h
  · rename_i hupper
    obtain ⟨-, hlast, hchar⟩ := ofNat_of_between 0 hupper (Option.some.inj h)
    change v ≤ 25 at hlast
    rw [digit, if_pos (by omega)]
    exact ⟨by omega, hchar⟩
  split at h
  · rename_i hlower
    obtain ⟨hfirst, hlast, hchar⟩ := ofNat_of_between 26 hlower (Option.some.inj h)
    change v ≤ 51 at hlast
    rw [digit, if_neg (by omega), if_pos (by omega)]
    exact ⟨by omega, hchar⟩
  split at h
  · rename_i hdigit
    obtain ⟨hfirst, hlast, hchar⟩ := ofNat_of_between 52 hdigit (Option.some.inj h)
    change v ≤ 61 at hlast
    rw [digit, if_neg (by omega), if_neg (by omega), if_pos (by omega)]
    exact ⟨by omega, hchar⟩
  split at h
  · rename_i hplus
    obtain rfl := Option.some.inj h
    exact ⟨by decide, hplus.symm⟩
  split at h
  · rename_i hslash
    obtain rfl := Option.some.inj h
    exact ⟨by decide, hslash.symm⟩
  · cases h

theorem toNat_byte {n : Nat} (h : n < 256) : (UInt8.ofNat n).toNat = n :=
  UInt8.toNat_ofNat_of_lt' h

/-- Only what is written for some bytes is read. -/
theorem encodeChars_of_decodeChars (h : decodeChars chars = some bytes) :
    encodeChars bytes = chars := by
  fun_induction decodeChars chars generalizing bytes with
  | case1 =>
      obtain rfl := Option.some.inj h
      rfl
  | case2 a b =>
      obtain ⟨x, hx, hrest⟩ := Option.bind_eq_some_iff.1 h
      obtain ⟨y, hy, hbytes⟩ := Option.bind_eq_some_iff.1 hrest
      obtain ⟨hx64, rfl⟩ := digit_of_value hx
      obtain ⟨hy64, rfl⟩ := digit_of_value hy
      obtain ⟨hspare, hbytes⟩ := Option.ite_none_right_eq_some.1 hbytes
      obtain rfl := Option.some.inj hbytes
      generalize hn : x * 64 + y = n at *
      have hvalue : n / 16 * 16 = n := by omega
      have hfirst : n / 64 = x := by omega
      have hsecond : n % 64 = y := by omega
      simp only [encodeChars, toNat_byte (show n / 16 < 256 by omega), hvalue, hfirst, hsecond]
  | case3 a b c =>
      obtain ⟨x, hx, hrest⟩ := Option.bind_eq_some_iff.1 h
      obtain ⟨y, hy, hlast⟩ := Option.bind_eq_some_iff.1 hrest
      obtain ⟨z, hz, hbytes⟩ := Option.bind_eq_some_iff.1 hlast
      obtain ⟨hx64, rfl⟩ := digit_of_value hx
      obtain ⟨hy64, rfl⟩ := digit_of_value hy
      obtain ⟨hz64, rfl⟩ := digit_of_value hz
      obtain ⟨hspare, hbytes⟩ := Option.ite_none_right_eq_some.1 hbytes
      obtain rfl := Option.some.inj hbytes
      generalize hn : (x * 64 + y) * 64 + z = n at *
      have hvalue : (n / 1024 * 256 + n / 4 % 256) * 4 = n := by omega
      have hfirst : n / 4096 = x := by omega
      have hsecond : n / 64 % 64 = y := by omega
      have hthird : n % 64 = z := by omega
      simp only [encodeChars, toNat_byte (show n / 1024 < 256 by omega),
        toNat_byte (show n / 4 % 256 < 256 by omega), hvalue, hfirst, hsecond, hthird]
  | case4 a b c d rest _ _ ih =>
      obtain ⟨x, hx, hafter⟩ := Option.bind_eq_some_iff.1 h
      obtain ⟨y, hy, hafter⟩ := Option.bind_eq_some_iff.1 hafter
      obtain ⟨z, hz, hafter⟩ := Option.bind_eq_some_iff.1 hafter
      obtain ⟨w, hw, hafter⟩ := Option.bind_eq_some_iff.1 hafter
      obtain ⟨others, hothers, hbytes⟩ := Option.bind_eq_some_iff.1 hafter
      obtain ⟨hx64, rfl⟩ := digit_of_value hx
      obtain ⟨hy64, rfl⟩ := digit_of_value hy
      obtain ⟨hz64, rfl⟩ := digit_of_value hz
      obtain ⟨hw64, rfl⟩ := digit_of_value hw
      obtain rfl := Option.some.inj hbytes
      generalize hn : ((x * 64 + y) * 64 + z) * 64 + w = n at *
      have hvalue : (n / 65536 * 256 + n / 256 % 256) * 256 + n % 256 = n := by omega
      have hfirst : n / 262144 = x := by omega
      have hsecond : n / 4096 % 64 = y := by omega
      have hthird : n / 64 % 64 = z := by omega
      have hfourth : n % 64 = w := by omega
      simp only [encodeChars, toNat_byte (show n / 65536 < 256 by omega),
        toNat_byte (show n / 256 % 256 < 256 by omega),
        toNat_byte (show n % 256 < 256 by omega), hvalue, hfirst, hsecond, hthird, hfourth,
        ih hothers]
  | case5 => cases h

end Base64

/-- A login id that can be read is written again as it was. -/
theorem Push.encodeLoginId_of_decode {id : String} {raw : List UInt8}
    (h : decodeLoginId? id = some raw) : encodeLoginId raw = id := by
  apply String.toList_inj.1
  rw [encodeLoginId, Base64.encode, String.toList_ofList]
  exact Base64.encodeChars_of_decodeChars h

/-! ## What is found wrong -/

namespace Config

variable {config : Config} {ids : List String} {id : String}

theorem decodeLoginIds_ok (h : ∀ id ∈ ids, (Push.decodeLoginId? id).isSome = true) :
    ∃ raws, decodeLoginIds ids = .ok raws ∧ raws.map Push.encodeLoginId = ids := by
  induction ids with
  | nil => exact ⟨[], rfl, rfl⟩
  | cons id rest ih =>
      obtain ⟨hid, hrest⟩ := List.forall_mem_cons.1 h
      obtain ⟨raw, hraw⟩ := Option.isSome_iff_exists.1 hid
      obtain ⟨raws, hraws, heq⟩ := ih hrest
      refine ⟨raw :: raws, ?_, ?_⟩
      · simp only [decodeLoginIds, hraw, hraws]
        rfl
      · rw [List.map_cons, Push.encodeLoginId_of_decode hraw, heq]

theorem mem_validate_malformed (hid : id ∈ config.device.rootLoginIds)
    (h : Push.decodeLoginId? id = none) : .malformedLoginId id ∈ config.validate := by
  simp [validate, hid, h]

theorem mem_validate_blank (h : Text.trim config.server.baseUrl = "") :
    .blankBaseUrl ∈ config.validate := by
  simp [validate, h]

/-- Where no error is found the address is not blank and all login ids can be read. -/
theorem faultless (h : ∀ finding ∈ config.validate, finding.isError = false) :
    Text.trim config.server.baseUrl ≠ "" ∧
      ∀ id ∈ config.device.rootLoginIds, (Push.decodeLoginId? id).isSome = true := by
  constructor
  · intro hblank
    cases h _ (mem_validate_blank hblank)
  · intro id hid
    cases hdecode : Push.decodeLoginId? id with
    | none => cases h _ (mem_validate_malformed hid hdecode)
    | some raw => rfl

end Config

/-! ## What is sent -/

open ProgramQueue.Task (Within within_bind within_request within_any)

namespace Queue

/-- If the request is an update of the device, it names these logins. -/
def Request.NamesLogins (ids : List String) : Request → Prop
  | .push (.updateDevice update) => update.rootLoginIds = ids
  | _ => True

variable {ids : List String}

theorem planAll_names (settings : Settings) (entries : List (String × Item)) :
    (planAll settings entries).Within (Request.NamesLogins ids) := by
  induction entries with
  | nil => trivial
  | cons entry rest ih =>
      rw [planAll]
      split
      · exact ih
      · have hplan : (planEvents settings entry.2.program entry.2.state.current).Within
            (Request.NamesLogins ids) :=
          within_bind ((within_any _).relay fun _ _ => trivial) fun _ => trivial
        refine within_bind hplan fun planned => within_bind ih fun others => ?_
        cases planned <;> trivial

theorem recordEvents_names (planned : List (String × List Push.Event)) :
    (recordEvents planned).Within (Request.NamesLogins ids) := by
  induction planned with
  | nil => trivial
  | cons entry rest ih =>
      refine within_bind (within_request trivial) fun answer => ?_
      cases answer with
      | error e => trivial
      | ok state => exact ih

/-- The device is registered under the logins of its identity. -/
theorem registerDevice_names (settings : Settings) (identity : DeviceIdentity) :
    (registerDevice settings identity).Within
      (Request.NamesLogins (identity.rootLoginIds.map Push.encodeLoginId)) := by
  refine within_bind (within_request trivial) fun answer => ?_
  cases answer with
  | error e => trivial
  | ok entries =>
      refine within_bind (planAll_names settings entries) fun planned => ?_
      refine within_bind (within_request rfl) fun answer => ?_
      cases answer with
      | error e => trivial
      | ok device => exact within_bind (recordEvents_names planned) fun _ => trivial

end Queue

namespace Push

/-- If the request is an attempt, it is one of this message. -/
def NetworkRequest.IsOf (message : Message) : NetworkRequest → Prop
  | .attempt sent => sent = message
  | .pause _ => True

/-- If the request is an attempt, it carries an update of the device, and the login in its
header is the first that the update names. -/
def NetworkRequest.Carries (update : DeviceUpdate) : NetworkRequest → Prop
  | .attempt message => message.body = update.toJson.compact ∧
      message.headers.lookup "x-login-id" = update.rootLoginIds.head?
  | .pause _ => True

theorem Client.attemptFrom_message (policy : RetryPolicy) (path : String) (message : Message)
    (attempt more : Nat) :
    (attemptFrom policy path message attempt more).Within (NetworkRequest.IsOf message) := by
  induction more generalizing attempt with
  | zero => exact within_bind (within_request rfl) fun _ => trivial
  | succ more ih =>
      refine within_bind (within_request rfl) fun answer => ?_
      split
      · trivial
      · split
        · exact within_bind (within_request trivial) fun _ => ih (attempt + 1)
        · trivial

theorem Client.updateDevice_message (client : Client) (update : DeviceUpdate) :
    (client.updateDevice update).Within
      (NetworkRequest.IsOf (client.message devicePath update.toJson)) :=
  within_bind (attemptFrom_message _ _ _ _ _) fun _ => trivial

theorem Client.lookup_login (client : Client) :
    client.headers.lookup "x-login-id" = client.config.loginId := by
  unfold headers
  cases client.config.apiKey <;> cases client.config.deviceId <;> cases client.config.loginId <;>
    rfl

end Push

namespace Config

/-- A device with an identity is registered under these logins, whatever the world outside
answers, and the first of them is in the header of each attempt. -/
structure SendsLogins (client : Push.Client) (identity : DeviceIdentity) (ids : List String) :
    Prop where
  written : identity.rootLoginIds.map Push.encodeLoginId = ids
  registered : ∀ settings,
    (Queue.registerDevice settings identity).Within (Queue.Request.NamesLogins ids)
  carried : ∀ update : Push.DeviceUpdate, update.rootLoginIds = ids →
    (client.updateDevice update).Within (Push.NetworkRequest.Carries update)

variable {config : Config}

theorem client_of_faultless (h : ∀ finding ∈ config.validate, finding.isError = false) :
    ∃ hasAddress, Push.Client.ofConfig config.clientConfig =
      .ok ⟨config.clientConfig, hasAddress⟩ :=
  ⟨(faultless h).1, dif_pos (faultless h).1⟩

theorem identity_of_faultless (h : ∀ finding ∈ config.validate, finding.isError = false)
    (htoken : config.device.deviceToken ≠ "") :
    ∃ identity, config.deviceIdentity = .ok (some identity) ∧
      identity.rootLoginIds.map Push.encodeLoginId = config.device.rootLoginIds := by
  obtain ⟨raws, hraws, heq⟩ := decodeLoginIds_ok (faultless h).2
  refine ⟨⟨config.device.deviceToken, raws⟩, ?_, heq⟩
  rw [deviceIdentity, if_neg (by simpa using htoken), hraws]
  rfl

/-- With a configuration in which no error is found the device is registered under the logins
as they are configured; and a configuration that cannot be used has an error that is found. -/
theorem validated_sends_logins (config : Config) :
    (config.device.deviceToken ≠ "" →
      (∀ finding ∈ config.validate, finding.isError = false) →
        ∃ client identity, Push.Client.ofConfig config.clientConfig = .ok client ∧
          config.deviceIdentity = .ok (some identity) ∧
          SendsLogins client identity config.device.rootLoginIds) ∧
      ((∃ e, config.deviceIdentity = .error e) ∨
          (∃ e, Push.Client.ofConfig config.clientConfig = .error e) →
        ∃ finding ∈ config.validate, finding.isError = true) := by
  constructor
  · intro htoken h
    obtain ⟨hasAddress, hclient⟩ := client_of_faultless h
    obtain ⟨identity, hidentity, hids⟩ := identity_of_faultless h htoken
    refine ⟨_, identity, hclient, hidentity, hids, fun settings => ?_, fun update hupdate => ?_⟩
    · rw [← hids]
      exact Queue.registerDevice_names settings identity
    · refine (Push.Client.updateDevice_message _ update).imp fun request hrequest => ?_
      cases request with
      | pause ms => trivial
      | attempt message =>
          obtain rfl : message = _ := hrequest
          exact ⟨rfl, (Push.Client.lookup_login _).trans (hupdate ▸ rfl)⟩
  · intro hrefused
    by_contra hnone
    have h : ∀ finding ∈ config.validate, finding.isError = false := fun finding hfinding =>
      Bool.eq_false_iff.2 fun herror => hnone ⟨finding, hfinding, herror⟩
    rcases hrefused with ⟨e, he⟩ | ⟨e, he⟩
    · by_cases htoken : config.device.deviceToken = ""
      · rw [deviceIdentity, if_pos (by simpa using htoken)] at he
        cases he
      · obtain ⟨identity, hidentity, -⟩ := identity_of_faultless h htoken
        cases hidentity.symm.trans he
    · obtain ⟨hasAddress, hclient⟩ := client_of_faultless h
      cases hclient.symm.trans he

/-- A configuration of a device with two logins, of which one is padded. -/
def enrolled : Config :=
  { usual with device := ⟨"device", "token", ["AQID", "AQI="]⟩ }

/-- A configuration with a login that leaves bits over. -/
def misspelled : Config :=
  { usual with device := ⟨"device", "token", ["AQID", "AQJ="]⟩ }

theorem two_logins_sent :
    (enrolled.device.deviceToken ≠ "" ∧
      (∀ finding ∈ enrolled.validate, finding.isError = false) ∧
      ∃ client identity, Push.Client.ofConfig enrolled.clientConfig = .ok client ∧
        enrolled.deviceIdentity = .ok (some identity) ∧
        SendsLogins client identity ["AQID", "AQI="]) ∧
      (∃ e, misspelled.deviceIdentity = .error e) ∧
      ∃ finding ∈ misspelled.validate, finding.isError = true := by
  have htoken : enrolled.device.deviceToken ≠ "" := by decide
  have hvalid : ∀ finding ∈ enrolled.validate, finding.isError = false := by decide
  have hrefused : ∃ e, misspelled.deviceIdentity = .error e := ⟨_, rfl⟩
  exact ⟨⟨htoken, hvalid, (validated_sends_logins enrolled).1 htoken hvalid⟩, hrefused,
    (validated_sends_logins misspelled).2 (.inl hrefused)⟩

end Config

end ProgramQueue
