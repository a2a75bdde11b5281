import Blackglass.Lib.Text
import Blackglass.Lib.Delimited
import Blackglass.Lib.IpAddr

/-!
# The public data host

The server tells its clients the host of the data plane and stores it with every vault, and
clients compare the two texts.  `isCanonicalDataHost` is the check of the configuration: a host
name or an address, with a port unless it is 443.  What a text denotes is read here a second time
without the check (`Endpoint.denoted`), and an endpoint has one spelling (`Endpoint.spelling`).
Which endpoints may be configured is said in terms of their hosts and ports (`Endpoint.Permitted`).
The check accepts the spellings of these, so two accepted texts that denote the same endpoint are
equal.
-/

namespace Blackglass

open Net Numeral Delimited

/-! ## The check -/

def validPort (value : List Char) : Bool :=
  match parseUnsigned 65536 value with
  | some port => port ≠ 0 && Nat.toDigits 10 port = value
  | none => false

def validPortSuffix (value : List Char) : Bool :=
  match value with
  | ':' :: port => validPort port
  | _ => false

/-- The rest of a value that starts with a bracket. -/
def isCanonicalBracketed (rest : List Char) : Bool :=
  match splitOnce ']' rest with
  | none => false
  | some (address, suffix) =>
    match Ipv6Addr.parse address with
    | none => false
    | some parsed =>
      if parsed.isLoopback || parsed.isUnspecified || parsed.isMulticast ||
          parsed.text ≠ address then false
      else suffix.isEmpty || (suffix ≠ ":443".toList && validPortSuffix suffix)

def isLabelChar (c : Char) : Bool := c.isLower || c.isDigit || c = '-'

/-- One label of a host name. -/
def isCanonicalLabel (label : List Char) : Bool :=
  !label.isEmpty && label.length ≤ 63 &&
    label.all isLabelChar && label.head? ≠ some '-' && label.getLast? ≠ some '-'

/-- A host that is no IPv4 address. -/
def isCanonicalName (host : List Char) (port : Option (List Char)) : Bool :=
  if host.all fun c => c.isDigit || c = '.' then false
  else if host.any Char.isUpper || 253 < host.length then false
  else if ("localhost".toList.isPrefixOf host && host ≠ "localhost".toList) ||
      ("127.0.0.1".toList.isPrefixOf host && host ≠ "127.0.0.1".toList) ||
      (host = "localhost".toList && port.isNone) then false
  else (host.splitOn '.').all isCanonicalLabel

/-- A host without brackets. -/
def isCanonicalHost (host : List Char) (port : Option (List Char)) : Bool :=
  match Ipv4Addr.parse host with
  | some address =>
    if address.isUnspecified || address.isMulticast || address.isBroadcast then false
    else (!address.isLoopback || (address = .localhost && port.isSome)) && address.text = host
  | none => isCanonicalName host port

/-- The host and the port of a value without brackets. -/
def hostAndPort (value : List Char) : List Char × Option (List Char) :=
  match rsplitOnce ':' value with
  | some (host, port) => (host, some port)
  | none => (value, none)

/-- A value that does not start with a bracket. -/
def isCanonicalUnbracketed (value : List Char) : Bool :=
  if value.contains '[' || value.contains ']' || 1 < value.count ':' then false
  else
    let (host, port) := hostAndPort value
    if (port.any fun port => !validPort port || port = "443".toList) || host.isEmpty then false
    else isCanonicalHost host port

/-- `is_canonical_data_host`. -/
def isCanonicalDataHost (value : String) : Bool :=
  if value.isEmpty || 255 < value.utf8ByteSize || Text.trim value ≠ value ||
      !(value.toList.all fun c => c.toNat < 128) ||
      value.toList.any (['/', '\\', '?', '#', '@'].contains ·) then false
  else match value.toList with
    | '[' :: rest => isCanonicalBracketed rest
    | chars => isCanonicalUnbracketed chars

def validatePublicDataHost (value : String) : Except String Unit :=
  if isCanonicalDataHost value then .ok ()
  else .error "SELFHOST_DATA_HOST must be a canonical hostname[:port]"

/-! ## What a text denotes -/

inductive Host where
  | ipv6 (address : Ipv6Addr)
  | ipv4 (address : Ipv4Addr)
  /-- A name, in lower case since the case of its letters does not matter. -/
  | name (text : String)
deriving DecidableEq

structure Endpoint where
  host : Host
  port : Nat
deriving DecidableEq

/-- The port of a connection with TLS if none is given. -/
def defaultPort : Nat := 443

/-- The host that a text without brackets denotes. -/
def Host.ofText (text : List Char) : Host :=
  match Ipv4Addr.parse text with
  | some address => .ipv4 address
  | none => .name (Text.toAsciiLowercase (String.ofList text))

/-- The port that is written after a host. -/
def readPort : Option (List Char) → Option Nat
  | none => some defaultPort
  | some port => parseUnsigned 65536 port

/-- What follows a bracket: nothing, or a colon and a port. -/
def readSuffix : List Char → Option Nat
  | [] => readPort none
  | ':' :: port => readPort (some port)
  | _ => none

/-- The endpoint that a text denotes, if it has the form of one. -/
def Endpoint.denoted (value : String) : Option Endpoint :=
  match value.toList with
  | '[' :: rest => do
    let (address, suffix) ← splitOnce ']' rest
    let parsed ← Ipv6Addr.parse address
    let port ← readSuffix suffix
    return ⟨.ipv6 parsed, port⟩
  | chars => do
    let port ← readPort (hostAndPort chars).2
    return ⟨.ofText (hostAndPort chars).1, port⟩

/-! ## The spelling of an endpoint -/

def Host.spelling : Host → List Char
  | .ipv6 address => '[' :: (address.text ++ [']'])
  | .ipv4 address => address.text
  | .name text => text.toList

/-- The text of a port; the default port is left out. -/
def portText (port : Nat) : Option (List Char) :=
  if port = defaultPort then none else some (Nat.toDigits 10 port)

def portSuffix : Option (List Char) → List Char
  | none => []
  | some port => ':' :: port

def portSpelling (port : Nat) : List Char := portSuffix (portText port)

def Endpoint.spelling (e : Endpoint) : List Char := e.host.spelling ++ portSpelling e.port

/-- A label of a host name. -/
structure Label (label : List Char) : Prop where
  length : 0 < label.length ∧ label.length ≤ 63
  chars : ∀ c ∈ label, ('a' ≤ c ∧ c ≤ 'z') ∨ ('0' ≤ c ∧ c ≤ '9') ∨ c = '-'
  first : ∀ rest, label ≠ '-' :: rest
  last : ∀ rest, label ≠ rest ++ ['-']

/-- The host names that may be configured, given the text of the port: labels with dots between
them that can be taken neither for a number nor for the machine itself, except for `localhost`
with a port. -/
structure HostName (port : Option (List Char)) (text : List Char) : Prop where
  labels : ∃ labels, labels ≠ [] ∧ (∀ label ∈ labels, Label label) ∧
    text = ['.'].intercalate labels
  length_le : text.length ≤ 253
  letter : ∃ c ∈ text, c ≠ '.' ∧ ¬('0' ≤ c ∧ c ≤ '9')
  localhost : ∀ rest, text = "localhost".toList ++ rest → rest = [] ∧ port.isSome = true
  loopback : ∀ rest, text ≠ "127.0.0.1".toList ++ rest

/-- The hosts that may be configured, given the text of the port. -/
def Host.Permitted (port : Option (List Char)) : Host → Prop
  | .ipv6 address =>
    address.isLoopback = false ∧ address.isUnspecified = false ∧ address.isMulticast = false
  | .ipv4 address =>
    (address.isUnspecified = false ∧ address.isMulticast = false ∧
      address.isBroadcast = false) ∧
    (address.isLoopback = true → address = .localhost ∧ port.isSome = true)
  | .name text => HostName port text.toList

/-- The endpoints that may be configured. -/
structure Endpoint.Permitted (e : Endpoint) : Prop where
  host : e.host.Permitted (portText e.port)
  port_pos : 0 < e.port
  port_lt : e.port < 65536
  length_le : e.spelling.length ≤ 255

/-! ## Ports -/

theorem validPort_iff {value : List Char} :
    validPort value = true ↔ ∃ port, 0 < port ∧ port < 65536 ∧ value = Nat.toDigits 10 port := by
  constructor
  · intro h
    rw [validPort] at h
    split at h
    case h_1 port hport =>
      obtain ⟨hne, htext⟩ : port ≠ 0 ∧ Nat.toDigits 10 port = value := by simpa using h
      exact ⟨port, Nat.pos_of_ne_zero hne, parseUnsigned_lt (by decide) hport, htext.symm⟩
    case h_2 => cases h
  · rintro ⟨port, hpos, hlt, rfl⟩
    rw [validPort, parseUnsigned_toDigits hlt]
    simp [Nat.ne_of_gt hpos]

/-- Valid, and not the default port written out. -/
def CanonicalPort (text : Option (List Char)) : Prop :=
  ∀ port ∈ text, validPort port = true ∧ port ≠ "443".toList

theorem toDigits_eq_default_iff {port : Nat} :
    Nat.toDigits 10 port = "443".toList ↔ port = defaultPort := by
  constructor
  · intro h
    calc port = Nat.ofDigitChars 10 (Nat.toDigits 10 port) 0 := Nat.ofDigitChars_ten_toDigits.symm
      _ = Nat.ofDigitChars 10 "443".toList 0 := by rw [h]
      _ = defaultPort := by decide
  · rintro rfl
    decide

theorem canonicalPort_iff {text : Option (List Char)} :
    CanonicalPort text ↔ ∃ port, 0 < port ∧ port < 65536 ∧ text = portText port := by
  constructor
  · intro h
    cases text with
    | none => exact ⟨defaultPort, by decide, by decide, rfl⟩
    | some value =>
      obtain ⟨hvalid, hne⟩ := h value rfl
      obtain ⟨port, hpos, hlt, rfl⟩ := validPort_iff.mp hvalid
      refine ⟨port, hpos, hlt, ?_⟩
      rw [portText, if_neg fun hport => hne (toDigits_eq_default_iff.mpr hport)]
  · rintro ⟨port, hpos, hlt, rfl⟩ value hvalue
    rw [portText] at hvalue
    split at hvalue
    case isTrue => cases hvalue
    case isFalse hne =>
      obtain rfl : Nat.toDigits 10 port = value := Option.some.inj hvalue
      exact ⟨validPort_iff.mpr ⟨port, hpos, hlt, rfl⟩,
        fun h => hne (toDigits_eq_default_iff.mp h)⟩

theorem readPort_portText {port : Nat} (h : port < 65536) :
    readPort (portText port) = some port := by
  rw [portText]
  split
  case isTrue hport => rw [hport, readPort]
  case isFalse => exact parseUnsigned_toDigits h

theorem readSuffix_portSpelling {port : Nat} (h : port < 65536) :
    readSuffix (portSpelling port) = some port := by
  have hsuffix : ∀ text, readSuffix (portSuffix text) = readPort text := by
    intro text
    cases text with
    | none => rfl
    | some port => rfl
  rw [portSpelling, hsuffix, readPort_portText h]

variable {port : Option (List Char)} {host : List Char} {c : Char}

theorem not_mem_toDigits {port : Nat} (hc : c.isDigit = false) : c ∉ Nat.toDigits 10 port := by
  intro h
  have hdigit := Nat.isDigit_of_mem_toDigits (by decide) (by decide) h
  rw [hc] at hdigit
  cases hdigit

theorem not_mem_portSpelling {port : Nat} (hc : c.isDigit = false) (hcolon : c ≠ ':') :
    c ∉ portSpelling port := by
  rw [portSpelling, portText]
  split
  case isTrue => exact List.not_mem_nil
  case isFalse => exact List.not_mem_cons_of_ne_of_not_mem hcolon (not_mem_toDigits hc)

/-! ## Host names -/

/-- Printable, and none of those that end the host of a URL. -/
def HostChar (c : Char) : Prop :=
  Text.isAsciiGraphic c = true ∧ c ∉ ['/', '\\', '?', '#', '@']

instance : DecidablePred HostChar := fun c =>
  inferInstanceAs (Decidable (Text.isAsciiGraphic c = true ∧ c ∉ ['/', '\\', '?', '#', '@']))

theorem hostChar_digitChar : ∀ d < 16, HostChar d.digitChar := by
  decide

/-- The characters of a label are those of a host, by inspection of all ASCII characters. -/
theorem hostChar_ofNat : ∀ n < 128, isLabelChar (Char.ofNat n) = true →
    HostChar (Char.ofNat n) ∧ (Char.ofNat n).isUpper = false := by
  decide +kernel

theorem isLabelChar_iff :
    isLabelChar c = true ↔ ('a' ≤ c ∧ c ≤ 'z') ∨ ('0' ≤ c ∧ c ≤ '9') ∨ c = '-' := by
  change ((decide (c.val ≥ 'a'.val) && decide (c.val ≤ 'z'.val)) ||
    (decide (c.val ≥ '0'.val) && decide (c.val ≤ '9'.val)) || decide (c = '-')) = true ↔ _
  simp only [Bool.or_eq_true, Bool.and_eq_true, decide_eq_true_eq, or_assoc]
  rfl

theorem hostChar_of_isLabelChar (h : isLabelChar c = true) : HostChar c ∧ c.isUpper = false := by
  have hbound : c.toNat < 128 := by
    rcases isLabelChar_iff.mp h with ⟨-, hle⟩ | ⟨-, hle⟩ | rfl
    · exact Nat.lt_of_le_of_lt (UInt32.le_iff_toNat_le.mp hle) (by decide)
    · exact Nat.lt_of_le_of_lt (UInt32.le_iff_toNat_le.mp hle) (by decide)
    · decide
  have hall := hostChar_ofNat c.toNat hbound
  rw [Char.ofNat_toNat] at hall
  exact hall h

theorem isCanonicalLabel_iff {label : List Char} : isCanonicalLabel label = true ↔ Label label := by
  have hfirst : label.head? ≠ some '-' ↔ ∀ rest, label ≠ '-' :: rest := by
    cases label <;> simp
  have hlast : label.getLast? ≠ some '-' ↔ ∀ rest, label ≠ rest ++ ['-'] := by
    simp [List.getLast?_eq_some_iff]
  simp only [isCanonicalLabel, Bool.and_eq_true, Bool.not_eq_true', List.isEmpty_eq_false_iff,
    decide_eq_true_eq, List.all_eq_true, isLabelChar_iff, hfirst, hlast,
    ← List.length_pos_iff_ne_nil]
  constructor
  · rintro ⟨⟨⟨hlength, hchars⟩, hfirst⟩, hlast⟩
    exact ⟨hlength, hchars, hfirst, hlast⟩
  · rintro ⟨hlength, hchars, hfirst, hlast⟩
    exact ⟨⟨⟨hlength, hchars⟩, hfirst⟩, hlast⟩

theorem HostName.mem (h : HostName port host) (hc : c ∈ host) : c = '.' ∨ isLabelChar c = true := by
  obtain ⟨labels, -, hlabels, rfl⟩ := h.labels
  rcases mem_of_mem_intercalate hc with hdot | ⟨label, hlabel, hc⟩
  · exact .inl hdot
  · exact .inr (isLabelChar_iff.mpr ((hlabels label hlabel).chars c hc))

/-- A host name is no IPv4 address. -/
theorem HostName.parse_eq_none (h : HostName port host) : Ipv4Addr.parse host = none := by
  obtain ⟨c, hc, hdot, hdigit⟩ := h.letter
  cases hparse : Ipv4Addr.parse host with
  | none => rfl
  | some address =>
    rcases Ipv4Addr.digitOrDot_of_parse hparse c hc with h | h
    · exact absurd h hdot
    · exact absurd h hdigit

theorem isDigit_iff : c.isDigit = true ↔ '0' ≤ c ∧ c ≤ '9' := by
  change (decide (c.val ≥ '0'.val) && decide (c.val ≤ '9'.val)) = true ↔ _
  simp only [Bool.and_eq_true, decide_eq_true_eq]
  rfl

/-- The host does not start with `start` and go on. -/
theorem isPrefixOf_eq_false_iff {start host : List Char} :
    (start.isPrefixOf host && host ≠ start) = false ↔
      ∀ rest, host = start ++ rest → rest = [] := by
  constructor
  · rintro h rest rfl
    simpa using h
  · intro h
    by_contra hnot
    simp only [Bool.not_eq_false, Bool.and_eq_true, List.isPrefixOf_iff_prefix,
      decide_eq_true_eq] at hnot
    obtain ⟨⟨rest, hrest⟩, hne⟩ := hnot
    rw [h rest hrest.symm, List.append_nil] at hrest
    exact hne hrest.symm

theorem hostName_of_isCanonicalName (h : isCanonicalName host port = true) :
    HostName port host := by
  rw [isCanonicalName] at h
  split at h
  · cases h
  split at h
  · cases h
  split at h
  · cases h
  case isFalse.isFalse.isFalse hnumber hlength hloopback =>
    simp only [Bool.or_eq_true, decide_eq_true_eq, not_or, Nat.not_lt] at hlength
    simp only [Bool.not_eq_true, Bool.or_eq_false_iff, isPrefixOf_eq_false_iff] at hloopback
    obtain ⟨⟨hlocalhost, hloopback⟩, hport⟩ := hloopback
    refine ⟨⟨_, List.splitOn_ne_nil _ _, ?_, (List.intercalate_splitOn '.').symm⟩, hlength.2, ?_,
      ?_, ?_⟩
    · exact fun label hlabel => isCanonicalLabel_iff.mp (List.all_eq_true.mp h label hlabel)
    · simp only [List.all_eq_true, not_forall, Bool.or_eq_true, decide_eq_true_eq, isDigit_iff,
        not_or] at hnumber
      obtain ⟨c, hc, hdigit, hdot⟩ := hnumber
      exact ⟨c, hc, hdot, hdigit⟩
    · rintro rest rfl
      obtain rfl := hlocalhost rest rfl
      exact ⟨rfl, by simpa using hport⟩
    · rintro rest rfl
      obtain rfl := hloopback rest rfl
      exact hnumber (by decide)

theorem HostName.isCanonicalName (h : HostName port host) : isCanonicalName host port = true := by
  obtain ⟨labels, hne, hlabels, htext⟩ := h.labels
  obtain ⟨c, hc, hdot, hdigit⟩ := h.letter
  have hnumber : ¬(host.all fun c => c.isDigit || c = '.') = true := by
    intro hall
    have hchar := List.all_eq_true.mp hall c hc
    simp only [Bool.or_eq_true, decide_eq_true_eq, isDigit_iff] at hchar
    exact hchar.elim hdigit hdot
  have hupper : ¬(host.any Char.isUpper || 253 < host.length) = true := by
    simp only [Bool.or_eq_true, List.any_eq_true, decide_eq_true_eq, not_or, Nat.not_lt]
    refine ⟨?_, h.length_le⟩
    rintro ⟨c, hc, hupper⟩
    rcases h.mem hc with rfl | hlabel
    · cases hupper
    · exact absurd hupper (by simp [(hostChar_of_isLabelChar hlabel).2])
  have hloopback : ¬(("localhost".toList.isPrefixOf host && host ≠ "localhost".toList) ||
      ("127.0.0.1".toList.isPrefixOf host && host ≠ "127.0.0.1".toList) ||
      (host = "localhost".toList && port.isNone)) = true := by
    simp only [Bool.not_eq_true, Bool.or_eq_false_iff, isPrefixOf_eq_false_iff]
    refine ⟨⟨fun rest hrest => (h.localhost rest hrest).1,
      fun rest hrest => absurd hrest (h.loopback rest)⟩, ?_⟩
    by_cases hlocalhost : host = "localhost".toList
    · have hport := (h.localhost [] (by rw [hlocalhost, List.append_nil])).2
      rw [Option.isNone_eq_false_iff.mpr hport, Bool.and_false]
    · rw [decide_eq_false hlocalhost, Bool.false_and]
  have hdots : ∀ label ∈ labels, '.' ∉ label := by
    intro label hlabel hdot
    exact absurd (isLabelChar_iff.mpr ((hlabels label hlabel).chars '.' hdot)) (by decide)
  rw [Blackglass.isCanonicalName, if_neg hnumber, if_neg hupper, if_neg hloopback, htext,
    List.splitOn_intercalate _ hdots hne, List.all_eq_true]
  exact fun label hlabel => isCanonicalLabel_iff.mpr (hlabels label hlabel)

theorem isCanonicalName_iff : isCanonicalName host port = true ↔ HostName port host :=
  ⟨hostName_of_isCanonicalName, HostName.isCanonicalName⟩

/-! ## Hosts without brackets -/

theorem hostAndPort_append {port : Nat} (hhost : ':' ∉ host) :
    hostAndPort (host ++ portSpelling port) = (host, portText port) := by
  rw [hostAndPort, portSpelling, portText]
  by_cases hport : port = defaultPort
  · simp only [if_pos hport, portSuffix, List.append_nil, rsplitOnce_eq_none_iff.mpr hhost]
  · have hsplit : rsplitOnce ':' (host ++ ':' :: Nat.toDigits 10 port) =
        some (host, Nat.toDigits 10 port) :=
      rsplitOnce_eq_some_iff.mpr ⟨rfl, not_mem_toDigits (by decide)⟩
    simp only [if_neg hport, portSuffix, hsplit]

theorem eq_of_hostAndPort {value host : List Char}
    (hcount : value.count ':' ≤ 1) (h : hostAndPort value = (host, port)) :
    value = host ++ portSuffix port ∧ ':' ∉ host := by
  rw [hostAndPort] at h
  split at h
  case h_1 host' port' hsplit =>
    obtain ⟨rfl, rfl⟩ := Prod.mk.inj h
    obtain ⟨rfl, -⟩ := rsplitOnce_eq_some_iff.mp hsplit
    refine ⟨rfl, List.count_eq_zero.mp ?_⟩
    rw [List.count_append, List.count_cons_self] at hcount
    omega
  case h_2 hsplit =>
    obtain ⟨rfl, rfl⟩ := Prod.mk.inj h
    exact ⟨(List.append_nil value).symm, rsplitOnce_eq_none_iff.mp hsplit⟩

theorem count_portSpelling_le (port : Nat) : (portSpelling port).count ':' ≤ 1 := by
  rw [portSpelling, portText]
  split
  case isTrue => exact Nat.zero_le 1
  case isFalse =>
    rw [portSuffix, List.count_cons_self, List.count_eq_zero.mpr (not_mem_toDigits (by decide))]

theorem toLower_of_not_isUpper (h : c.isUpper = false) : c.toLower = c := by
  have hrange : decide (c.val ≥ 'A'.val ∧ c.val ≤ 'Z'.val) = false := h
  exact dif_neg (of_decide_eq_false hrange)

theorem HostName.lowercase (h : HostName port host) :
    Text.toAsciiLowercase (String.ofList host) = String.ofList host := by
  have hmap : host.map Char.toLower = host.map id := by
    refine List.map_congr_left fun c hc => toLower_of_not_isUpper ?_
    rcases h.mem hc with rfl | hlabel
    · rfl
    · exact (hostChar_of_isLabelChar hlabel).2
  rw [Text.toAsciiLowercase, String.toList_ofList, hmap, List.map_id]

theorem isCanonicalHost_iff :
    isCanonicalHost host port = true ↔
      (Host.ofText host).Permitted port ∧ (Host.ofText host).spelling = host := by
  rw [isCanonicalHost, Host.ofText]
  cases hparse : Ipv4Addr.parse host with
  | some address =>
    simp only [Host.Permitted, Host.spelling]
    cases address.isUnspecified <;> cases address.isMulticast <;>
      cases address.isBroadcast <;> cases address.isLoopback <;> simp
  | none =>
    simp only [Host.Permitted, Host.spelling]
    constructor
    · intro h
      rw [(isCanonicalName_iff.mp h).lowercase, String.toList_ofList]
      exact ⟨isCanonicalName_iff.mp h, rfl⟩
    · rintro ⟨hname, hspelling⟩
      rw [hspelling] at hname
      exact isCanonicalName_iff.mpr hname

theorem isCanonicalUnbracketed_iff {value : List Char} :
    isCanonicalUnbracketed value = true ↔
      ∃ host port, value = host ++ portSpelling port ∧ 0 < port ∧ port < 65536 ∧
        '[' ∉ host ∧ ']' ∉ host ∧ ':' ∉ host ∧ host ≠ [] ∧
        isCanonicalHost host (portText port) = true := by
  rw [isCanonicalUnbracketed]
  constructor
  · intro h
    split at h
    case isTrue => cases h
    case isFalse hchars =>
      obtain ⟨⟨hopen, hclose⟩, hcount⟩ :
          ('[' ∉ value ∧ ']' ∉ value) ∧ value.count ':' ≤ 1 := by simpa [not_or] using hchars
      obtain ⟨host, port, hsplit⟩ : ∃ host port, hostAndPort value = (host, port) := ⟨_, _, rfl⟩
      obtain ⟨rfl, hcolon⟩ := eq_of_hostAndPort hcount hsplit
      rw [hsplit] at h
      dsimp only at h
      split at h
      case isTrue => cases h
      case isFalse hport =>
        obtain ⟨hport, hne⟩ : CanonicalPort port ∧ host ≠ [] := by
          simpa [CanonicalPort, Option.any_eq_true] using hport
        obtain ⟨n, hpos, hlt, rfl⟩ := canonicalPort_iff.mp hport
        exact ⟨host, n, rfl, hpos, hlt, fun hc => hopen (List.mem_append_left _ hc),
          fun hc => hclose (List.mem_append_left _ hc), hcolon, hne, h⟩
  · rintro ⟨host, port, rfl, hpos, hlt, hopen, hclose, hcolon, hne, hhost⟩
    have hopen' : '[' ∉ host ++ portSpelling port :=
      List.not_mem_append hopen (not_mem_portSpelling (by decide) (by decide))
    have hclose' : ']' ∉ host ++ portSpelling port :=
      List.not_mem_append hclose (not_mem_portSpelling (by decide) (by decide))
    have hcount : (host ++ portSpelling port).count ':' ≤ 1 := by
      rw [List.count_append, List.count_eq_zero.mpr hcolon, Nat.zero_add]
      exact count_portSpelling_le port
    have hport : CanonicalPort (portText port) := canonicalPort_iff.mpr ⟨port, hpos, hlt, rfl⟩
    rw [if_neg, hostAndPort_append hcolon]
    case hnc =>
      simp only [Bool.or_eq_true, List.contains_iff_mem, decide_eq_true_eq, not_or]
      exact ⟨⟨hopen', hclose'⟩, Nat.not_lt.mpr hcount⟩
    dsimp only
    rw [if_neg (by simpa [CanonicalPort, Option.any_eq_true, hne] using hport), hhost]

/-! ## Addresses in brackets -/

theorem suffix_iff {suffix : List Char} :
    (suffix.isEmpty || (suffix ≠ ":443".toList && validPortSuffix suffix)) = true ↔
      ∃ text, CanonicalPort text ∧ suffix = portSuffix text := by
  constructor
  · intro h
    rcases (Bool.or_eq_true _ _).mp h with hempty | hport
    · exact ⟨none, fun port hport => (by cases hport), List.isEmpty_iff.mp hempty⟩
    · obtain ⟨hne, hvalid⟩ : suffix ≠ ":443".toList ∧ validPortSuffix suffix = true := by
        simpa using hport
      unfold validPortSuffix at hvalid
      split at hvalid
      case h_1 port =>
        refine ⟨some port, fun port' hport' => ?_, rfl⟩
        obtain rfl : port = port' := Option.some.inj hport'
        exact ⟨hvalid, fun h443 => hne (by rw [h443]; rfl)⟩
      case h_2 => cases hvalid
  · rintro ⟨text, htext, rfl⟩
    cases text with
    | none => rfl
    | some port =>
      obtain ⟨hvalid, hne⟩ := htext port rfl
      have hne' : ':' :: port ≠ ":443".toList := fun h => hne (List.cons.inj h).2
      simpa [portSuffix, validPortSuffix, hvalid] using hne'

theorem splitOnce_text (address : Ipv6Addr) (suffix : List Char) :
    splitOnce ']' (address.text ++ ']' :: suffix) = some (address.text, suffix) := by
  refine splitOnce_eq_some_iff.mpr ⟨rfl, fun hc => ?_⟩
  rcases Ipv6Addr.mem_text hc with h | h | ⟨d, hd, h⟩
  · exact absurd h (by decide)
  · exact absurd h (by decide)
  · exact Nat.digitChar_ne ']' (by decide) h.symm

theorem isCanonicalBracketed_iff {rest : List Char} :
    isCanonicalBracketed rest = true ↔
      ∃ address port, rest = Ipv6Addr.text address ++ ']' :: portSpelling port ∧ 0 < port ∧
        port < 65536 ∧ (Host.ipv6 address).Permitted (portText port) := by
  rw [isCanonicalBracketed]
  constructor
  · intro h
    split at h
    case h_1 => cases h
    case h_2 address suffix hsplit =>
      split at h
      case h_1 => cases h
      case h_2 parsed hparsed =>
        split at h
        case isTrue => cases h
        case isFalse hclass =>
          obtain ⟨⟨⟨hloop, hunspecified⟩, hmulticast⟩, rfl⟩ :
              ((parsed.isLoopback = false ∧ parsed.isUnspecified = false) ∧
                parsed.isMulticast = false) ∧ parsed.text = address := by
            simpa [not_or] using hclass
          obtain ⟨text, htext, rfl⟩ := suffix_iff.mp h
          obtain ⟨port, hpos, hlt, rfl⟩ := canonicalPort_iff.mp htext
          exact ⟨parsed, port, (splitOnce_eq_some_iff.mp hsplit).1, hpos, hlt, hloop,
            hunspecified, hmulticast⟩
  · rintro ⟨address, port, rfl, hpos, hlt, hloop, hunspecified, hmulticast⟩
    have hport : CanonicalPort (portText port) := canonicalPort_iff.mpr ⟨port, hpos, hlt, rfl⟩
    have hsuffix := suffix_iff.mpr ⟨_, hport, rfl⟩
    rw [splitOnce_text]
    dsimp only
    rw [address.parse_text]
    dsimp only
    rw [if_neg (by simp [hloop, hunspecified, hmulticast])]
    exact hsuffix

/-! ## The characters of a spelling -/

theorem hostChar_of_mem_portSpelling {port : Nat} (hc : c ∈ portSpelling port) : HostChar c := by
  by_cases hcolon : c = ':'
  · subst c
    decide
  · by_cases hdigit : c.isDigit = true
    · exact (hostChar_of_isLabelChar (by simp [isLabelChar, hdigit])).1
    · exact absurd hc (not_mem_portSpelling (by simpa using hdigit) hcolon)

theorem not_isWhiteSpace_of_hostChar (h : HostChar c) : Text.isWhiteSpace c = false := by
  have hbound := Text.toNat_of_isAsciiGraphic h.1
  simp only [Text.isWhiteSpace, Bool.or_eq_false_iff, Bool.and_eq_false_iff,
    decide_eq_false_iff_not]
  omega

theorem trim_of_hostChar {s : String} (h : ∀ c ∈ s.toList, HostChar c) : Text.trim s = s := by
  have hspace : ∀ cs : List Char, (∀ c ∈ cs, HostChar c) → cs.dropWhile Text.isWhiteSpace = cs := by
    intro cs hcs
    cases cs with
    | nil => rfl
    | cons c cs =>
      have hc := not_isWhiteSpace_of_hostChar (hcs c List.mem_cons_self)
      exact List.dropWhile_cons_of_neg (by simp [hc])
  rw [Text.trim, Text.trimMatches, hspace _ h, hspace _ fun c hc => h c (List.mem_reverse.mp hc),
    List.reverse_reverse, String.ofList_toList]

theorem utf8ByteSize_of_ascii {s : String} (h : ∀ c ∈ s.toList, c.toNat < 128) :
    s.utf8ByteSize = s.toList.length := by
  rw [Text.utf8ByteSize_eq_utf8Len, Text.utf8Len_of_ascii fun c hc => Nat.le_of_lt_succ (h c hc)]

/-! ## What the check accepts -/

/-- A host without brackets is read back from its spelling. -/
theorem ofText_spelling {host : Host} (h : host.Permitted port)
    (hhost : ∀ address, host ≠ .ipv6 address) : Host.ofText host.spelling = host := by
  cases host with
  | ipv6 address => exact absurd rfl (hhost address)
  | ipv4 address => rw [Host.spelling, Host.ofText, address.parse_text]
  | name text =>
    have hlower := HostName.lowercase h
    rw [String.ofList_toList] at hlower
    rw [Host.spelling, Host.ofText, HostName.parse_eq_none h, String.ofList_toList, hlower]

theorem mem_spelling {host : Host} (h : host.Permitted port)
    (hhost : ∀ address, host ≠ .ipv6 address) (hc : c ∈ host.spelling) :
    c = '.' ∨ isLabelChar c = true := by
  cases host with
  | ipv6 address => exact absurd rfl (hhost address)
  | ipv4 address =>
    rcases Ipv4Addr.mem_text hc with rfl | ⟨d, hd, rfl⟩
    · exact .inl rfl
    · exact .inr (by simp [isLabelChar, Nat.isDigit_digitChar, hd])
  | name text => exact HostName.mem h hc

theorem not_mem_spelling {host : Host} (h : host.Permitted port)
    (hhost : ∀ address, host ≠ .ipv6 address) (hdot : c ≠ '.')
    (hlabel : isLabelChar c = false) : c ∉ host.spelling := by
  intro hc
  rcases mem_spelling h hhost hc with h | h
  · exact hdot h
  · rw [hlabel] at h
    cases h

theorem not_bracketed {host : Host} {text : Option (List Char)} (h : host.Permitted text)
    (hhost : ∀ address, host ≠ .ipv6 address) (port : Nat) (rest : List Char) :
    host.spelling ++ portSpelling port ≠ '[' :: rest := by
  intro heq
  have hmem : '[' ∈ host.spelling ++ portSpelling port := heq ▸ List.mem_cons_self
  rcases List.mem_append.mp hmem with hc | hc
  · exact not_mem_spelling h hhost (by decide) (by decide) hc
  · exact not_mem_portSpelling (by decide) (by decide) hc

theorem spelling_ne_nil {host : Host} (h : host.Permitted port) : host.spelling ≠ [] := by
  cases host with
  | ipv6 address => exact List.cons_ne_nil _ _
  | ipv4 address => simp [Host.spelling, Ipv4Addr.text]
  | name text =>
    obtain ⟨c, hc, -⟩ := HostName.letter h
    exact List.ne_nil_of_mem hc

theorem isCanonicalUnbracketed_of_permitted {host : Host} {port : Nat}
    (h : host.Permitted (portText port)) (hhost : ∀ address, host ≠ .ipv6 address)
    (hpos : 0 < port) (hlt : port < 65536) :
    isCanonicalUnbracketed (host.spelling ++ portSpelling port) = true := by
  have hread := ofText_spelling h hhost
  have hcanonical : isCanonicalHost host.spelling (portText port) = true :=
    isCanonicalHost_iff.mpr ⟨hread.symm ▸ h, by rw [hread]⟩
  exact isCanonicalUnbracketed_iff.mpr ⟨host.spelling, port, rfl, hpos, hlt,
    not_mem_spelling h hhost (by decide) (by decide),
    not_mem_spelling h hhost (by decide) (by decide),
    not_mem_spelling h hhost (by decide) (by decide), spelling_ne_nil h, hcanonical⟩

theorem exists_of_isCanonicalDataHost {value : String} (h : isCanonicalDataHost value = true) :
    ∃ e : Endpoint, e.Permitted ∧ value.toList = e.spelling := by
  rw [isCanonicalDataHost] at h
  split at h
  case isTrue => cases h
  case isFalse hguard =>
    simp only [Bool.or_eq_true, not_or, Bool.not_eq_true', Bool.not_eq_false, List.all_eq_true,
      decide_eq_true_eq] at hguard
    obtain ⟨⟨⟨⟨-, hlen⟩, -⟩, hascii⟩, -⟩ := hguard
    have hlength : value.toList.length ≤ 255 := by
      rw [← utf8ByteSize_of_ascii hascii]
      exact Nat.not_lt.mp hlen
    split at h
    case h_1 rest hvalue =>
      obtain ⟨address, port, rfl, hpos, hlt, hpermitted⟩ := isCanonicalBracketed_iff.mp h
      have hspelling : value.toList = Endpoint.spelling ⟨.ipv6 address, port⟩ := by
        simp [hvalue, Endpoint.spelling, Host.spelling]
      exact ⟨⟨.ipv6 address, port⟩, ⟨hpermitted, hpos, hlt, hspelling ▸ hlength⟩, hspelling⟩
    case h_2 =>
      obtain ⟨host, port, hvalue, hpos, hlt, -, -, -, -, hcanonical⟩ :=
        isCanonicalUnbracketed_iff.mp h
      obtain ⟨hpermitted, hhost⟩ := isCanonicalHost_iff.mp hcanonical
      have hspelling : value.toList = Endpoint.spelling ⟨.ofText host, port⟩ := by
        rw [hvalue, Endpoint.spelling, hhost]
      exact ⟨⟨.ofText host, port⟩, ⟨hpermitted, hpos, hlt, hspelling ▸ hlength⟩, hspelling⟩

theorem hostChar_of_mem_spelling {e : Endpoint} (h : e.Permitted)
    (hc : c ∈ e.spelling) : HostChar c := by
  rcases List.mem_append.mp hc with hhost | hport
  · obtain ⟨host, port⟩ := e
    cases host with
    | ipv6 address =>
      have hbrackets : c = '[' ∨ c ∈ address.text ∨ c = ']' := by
        simpa [Host.spelling] using hhost
      rcases hbrackets with rfl | htext | rfl
      · decide
      · rcases Ipv6Addr.mem_text htext with rfl | rfl | ⟨d, hd, rfl⟩
        · decide
        · decide
        · exact hostChar_digitChar d hd
      · decide
    | ipv4 address | name text =>
      rcases mem_spelling h.host (by simp) hhost with rfl | hlabel
      · decide
      · exact (hostChar_of_isLabelChar hlabel).1
  · exact hostChar_of_mem_portSpelling hport

theorem isCanonicalDataHost_of_permitted {e : Endpoint} (h : e.Permitted) {value : String}
    (hvalue : value.toList = e.spelling) : isCanonicalDataHost value = true := by
  have hchars : ∀ c ∈ value.toList, HostChar c := fun c hc =>
    hostChar_of_mem_spelling h (hvalue ▸ hc)
  have hascii : ∀ c ∈ value.toList, c.toNat < 128 := fun c hc => by
    have := Text.toNat_of_isAsciiGraphic (hchars c hc).1
    omega
  rw [isCanonicalDataHost, if_neg]
  case hnc =>
    simp only [Bool.or_eq_true, not_or, Bool.not_eq_true', Bool.not_eq_false, List.all_eq_true,
      List.any_eq_true, decide_eq_true_eq, not_exists, not_and, List.contains_iff_mem]
    refine ⟨⟨⟨⟨?_, ?_⟩, ?_⟩, hascii⟩, fun c hc => (hchars c hc).2⟩
    · intro hempty
      have hnil : value.toList = [] := by simpa using hempty
      exact List.append_ne_nil_of_left_ne_nil (spelling_ne_nil h.host) _ (hvalue.symm.trans hnil)
    · rw [utf8ByteSize_of_ascii hascii, hvalue]
      exact Nat.not_lt.mpr h.length_le
    · simpa using trim_of_hostChar hchars
  obtain ⟨host, port⟩ := e
  cases host with
  | ipv6 address =>
    have hbracketed : value.toList = '[' :: (address.text ++ ']' :: portSpelling port) := by
      simp [hvalue, Endpoint.spelling, Host.spelling]
    rw [hbracketed]
    exact isCanonicalBracketed_iff.mpr ⟨address, port, rfl, h.port_pos, h.port_lt, h.host⟩
  | ipv4 address | name text =>
    have hfirst := not_bracketed h.host (by simp) port
    rw [Endpoint.spelling] at hvalue
    rw [hvalue]
    split
    case h_1 rest hrest => exact absurd hrest (hfirst rest)
    case h_2 => exact isCanonicalUnbracketed_of_permitted h.host (by simp) h.port_pos h.port_lt

/-- The configuration accepts the spellings of the endpoints that may be configured, and nothing
else. -/
theorem validatePublicDataHost_iff {value : String} :
    validatePublicDataHost value = .ok () ↔
      ∃ e : Endpoint, e.Permitted ∧ value.toList = e.spelling := by
  rw [validatePublicDataHost]
  constructor
  · intro h
    split at h
    case isTrue hcanonical => exact exists_of_isCanonicalDataHost hcanonical
    case isFalse => cases h
  · rintro ⟨e, he, hvalue⟩
    rw [if_pos (isCanonicalDataHost_of_permitted he hvalue)]

/-! ## One text for each endpoint -/

/-- An endpoint is read back from its spelling. -/
theorem denoted_of_spelling {e : Endpoint} (h : e.Permitted) {value : String}
    (hvalue : value.toList = e.spelling) : Endpoint.denoted value = some e := by
  obtain ⟨host, port⟩ := e
  rw [Endpoint.denoted, hvalue]
  cases host with
  | ipv6 address =>
    have hbracketed : Endpoint.spelling ⟨.ipv6 address, port⟩ =
        '[' :: (address.text ++ ']' :: portSpelling port) := by
      simp [Endpoint.spelling, Host.spelling]
    rw [hbracketed]
    simp [splitOnce_text, address.parse_text, readSuffix_portSpelling h.port_lt]
  | ipv4 address | name text =>
    have hfirst := not_bracketed h.host (by simp) port
    have hcolon := not_mem_spelling (c := ':') h.host (by simp) (by decide) (by decide)
    rw [Endpoint.spelling]
    split
    case h_1 rest hrest => exact absurd hrest (hfirst rest)
    case h_2 =>
      rw [hostAndPort_append hcolon]
      simp [readPort_portText h.port_lt, ofText_spelling h.host]

/-- Two accepted texts that denote the same endpoint are the same text. -/
theorem isCanonicalDataHost_unique {a b : String} (ha : isCanonicalDataHost a = true)
    (hb : isCanonicalDataHost b = true) :
    (Endpoint.denoted a).isSome = true ∧ (Endpoint.denoted a = Endpoint.denoted b → a = b) := by
  obtain ⟨e, he, hae⟩ := exists_of_isCanonicalDataHost ha
  obtain ⟨f, hf, hbf⟩ := exists_of_isCanonicalDataHost hb
  rw [denoted_of_spelling he hae, denoted_of_spelling hf hbf]
  refine ⟨rfl, fun heq => String.toList_injective ?_⟩
  rw [hae, hbf, Option.some.inj heq]

theorem isCanonicalDataHost_unique_ipv6 :
    (Endpoint.denoted "[2001:db8::1]:8443").isSome = true ∧
      (Endpoint.denoted "[2001:db8::1]:8443" = Endpoint.denoted "blackglass.example" →
        "[2001:db8::1]:8443" = "blackglass.example") :=
  isCanonicalDataHost_unique (by decide +kernel) (by decide +kernel)

/-! ## Loopback addresses -/

/-- Whether a host is an address of the machine itself, where an IPv4-mapped address counts as
the IPv4 address it embeds. -/
def Host.denotesLoopback : Host → Bool
  | .ipv6 address =>
    match address.toIpv4Mapped with
    | some embedded => embedded.isLoopback
    | none => address.isLoopback
  | .ipv4 address => address.isLoopback
  | .name _ => false

/-- A text whose host is a loopback address is `127.0.0.1` with a port. -/
def LoopbackIsPlain (value : String) : Prop :=
  ∀ e, Endpoint.denoted value = some e → e.host.denotesLoopback = true →
    ∃ port : Nat, value = "127.0.0.1:" ++ toString port

/-- The host of the text is an IPv4-mapped address that embeds one of `127.0.0.0/8`. -/
def HasMappedLoopback (value : String) : Prop :=
  ∃ e address embedded, Endpoint.denoted value = some e ∧ e.host = .ipv6 address ∧
    address.toIpv4Mapped = some embedded ∧ embedded.isLoopback = true

theorem not_plain_of_bracketed {value : String} {rest : List Char}
    (h : value.toList = '[' :: rest) (port : Nat) : value ≠ "127.0.0.1:" ++ toString port := by
  rintro rfl
  rw [String.toList_append] at h
  cases (List.cons.inj h).1

/-- The loopback addresses of accepted texts are plain, but for the IPv4-mapped ones: the check
asks only whether the IPv6 address is `::1`. -/
theorem loopbackIsPlain_iff {value : String} (h : isCanonicalDataHost value = true) :
    LoopbackIsPlain value ↔ ¬HasMappedLoopback value := by
  obtain ⟨e, he, hvalue⟩ := exists_of_isCanonicalDataHost h
  have hdenoted := denoted_of_spelling he hvalue
  constructor
  · rintro hplain ⟨f, address, embedded, hf, hhost, hmapped, hloopback⟩
    obtain rfl : e = f := Option.some.inj (hdenoted.symm.trans hf)
    have hdenotes : e.host.denotesLoopback = true := by
      rw [hhost, Host.denotesLoopback, hmapped]
      exact hloopback
    obtain ⟨port, hport⟩ := hplain e hdenoted hdenotes
    have hbracketed : value.toList = '[' :: (address.text ++ [']'] ++ portSpelling e.port) := by
      rw [hvalue, Endpoint.spelling, hhost]
      rfl
    exact not_plain_of_bracketed hbracketed port hport
  · intro hmapped f hf hloopback
    obtain rfl : e = f := Option.some.inj (hdenoted.symm.trans hf)
    obtain ⟨host, port⟩ := e
    cases host with
    | ipv6 address =>
      rw [Host.denotesLoopback] at hloopback
      split at hloopback
      case h_1 embedded hembedded =>
        exact absurd ⟨_, address, embedded, hdenoted, rfl, hembedded, hloopback⟩ hmapped
      case h_2 =>
        rw [he.host.1] at hloopback
        cases hloopback
    | ipv4 address =>
      obtain ⟨rfl, hport⟩ := he.host.2 hloopback
      refine ⟨port, String.toList_injective ?_⟩
      have hne : port ≠ defaultPort := by
        rintro rfl
        cases hport
      have hspelling : portSpelling port = ':' :: Nat.toDigits 10 port := by
        rw [portSpelling, portText, if_neg hne, portSuffix]
      have hlocalhost : Ipv4Addr.localhost.text = "127.0.0.1".toList := by decide
      rw [hvalue, Endpoint.spelling, Host.spelling, hspelling, hlocalhost, String.toList_append,
        Nat.toString_eq_ofList_toDigits]
      simp
    | name text => cases hloopback

theorem loopbackIsPlain_localhost :
    LoopbackIsPlain "127.0.0.1:3003" ↔ ¬HasMappedLoopback "127.0.0.1:3003" :=
  loopbackIsPlain_iff (by decide +kernel)

/-- `[::ffff:127.0.0.1]:8443` is accepted. -/
theorem mapped_loopback_accepted :
    isCanonicalDataHost "[::ffff:127.0.0.1]:8443" = true ∧
      ¬LoopbackIsPlain "[::ffff:127.0.0.1]:8443" := by
  refine ⟨by decide +kernel, fun hplain => ?_⟩
  have hsome : (Endpoint.denoted "[::ffff:127.0.0.1]:8443").any
      (fun e => e.host.denotesLoopback) = true := by decide +kernel
  cases he : Endpoint.denoted "[::ffff:127.0.0.1]:8443" with
  | none =>
    rw [he] at hsome
    cases hsome
  | some e =>
    rw [he] at hsome
    obtain ⟨port, hport⟩ := hplain e he hsome
    have hbracketed : "[::ffff:127.0.0.1]:8443".toList = '[' :: "::ffff:127.0.0.1]:8443".toList :=
      rfl
    exact not_plain_of_bracketed hbracketed port hport

end Blackglass
