import Collage.Lib.Decimal

/-!
# The text form of nodes

A node sends its identifier, its endianness and the descriptions of its connections as text when it
connects (`node.cpp`, `connectionDescription.cpp`, `connectionType.h`). The fields are separated by
`#` and not escaped. A description is also read from a form for humans, which has no separator. The
identifiers are those of lunchbox, with their text form.
-/

namespace Collage.Description

inductive ConnectionType
  | none
  | tcpip
  | sdp
  | pipe
  | namedPipe
  | ib
  | rdma
  | udt
  | multicast
  | rsp
  deriving DecidableEq, Repr

/-- `operator << ( ConnectionType )`. -/
def ConnectionType.print : ConnectionType → List Char
  | .tcpip => "TCPIP".toList
  | .sdp => "SDP".toList
  | .pipe => "ANON_PIPE".toList
  | .namedPipe => "PIPE".toList
  | .rsp => "RSP".toList
  | .none => "NONE".toList
  | .rdma => "RDMA".toList
  | .udt => "UDT".toList
  | .ib => "ERROR".toList
  | .multicast => "ERROR".toList

def getConnectionType (string : List Char) : ConnectionType :=
  if string = "TCPIP".toList then .tcpip
  else if string = "TCP".toList then .tcpip
  else if string = "SDP".toList then .sdp
  else if string = "ANON_PIPE".toList then .pipe
  else if string = "PIPE".toList then .namedPipe
  else if string = "RSP".toList then .rsp
  else if string = "RDMA".toList then .rdma
  else if string = "UDT".toList then .udt
  else .none

structure ConnectionDescription where
  type : ConnectionType
  bandwidth : Int32
  port : UInt16
  hostname : List Char
  interfacename : List Char
  filename : List Char
  deriving DecidableEq

namespace ConnectionDescription

def default : ConnectionDescription where
  type := .tcpip
  bandwidth := 0
  port := 0
  hostname := []
  interfacename := []
  filename := "default".toList

def serialize (d : ConnectionDescription) : List Char :=
  d.type.print ++ '#' :: (decimalInt d.bandwidth.toInt ++ '#' :: (d.hostname ++ '#' ::
    (d.interfacename ++ '#' :: (decimal d.port.toNat ++ '#' :: (d.filename ++ ['#'])))))

end ConnectionDescription

/-- `find` and `substr`: the text before the first separator and the text behind it. -/
def cut (separator : Char) : List Char → Option (List Char × List Char)
  | [] => none
  | c :: data =>
      if c = separator then some ([], data)
      else (cut separator data).map (fun parts => (c :: parts.1, parts.2))

namespace ConnectionDescription

def readToken (d : ConnectionDescription) (token : List Char) : Option ConnectionDescription :=
  if token ≠ [] ∧ (token.headD ' ').isDigit then
    some { d with port := UInt16.ofInt (atoi token).toInt }
  else
    match getConnectionType token with
    | .none => none
    | .namedPipe => some { d with type := .namedPipe, filename := d.hostname, hostname := [] }
    | type => some { d with type := type }

def readTokens (d : ConnectionDescription) : List (List Char) → Option ConnectionDescription
  | [] => some d
  | token :: tokens => (d.readToken token).bind (fun d' => d'.readTokens tokens)

/-- `fromString`: the description and the rest of the text. -/
def fromString (d : ConnectionDescription) (data : List Char) :
    Option (ConnectionDescription × List Char) :=
  match cut '#' data with
  | none =>
      match cut ':' data with
      | none => some ({ d with type := .tcpip, hostname := data }, [])
      | some (hostname, rest) =>
          ({ d with type := .tcpip, hostname := hostname }.readTokens (rest.splitOn ':')).map
            (fun d' => (d', []))
  | some (typeStr, data) => do
      let (bandwidthStr, data) ← cut '#' data
      let (hostname, data) ← cut '#' data
      let (interfacename, data) ← cut '#' data
      let (portStr, data) ← cut '#' data
      let (filename, data) ← cut '#' data
      some ({ type := getConnectionType typeStr
              bandwidth := atoi bandwidthStr
              port := UInt16.ofInt (atoi portStr).toInt
              hostname := hostname
              interfacename := interfacename
              filename := filename }, data)

end ConnectionDescription

/-- `serialize( ConnectionDescriptions )`. -/
def serializeDescriptions (descriptions : List ConnectionDescription) : List Char :=
  decimal descriptions.length ++ '#' :: descriptions.flatMap ConnectionDescription.serialize

/-- The loop of `deserialize( ConnectionDescriptions )`. -/
def readDescriptions : ℕ → List Char → Option (List ConnectionDescription × List Char)
  | 0, data => some ([], data)
  | n + 1, data => do
      let (d, data) ← ConnectionDescription.default.fromString data
      let (descriptions, data) ← readDescriptions n data
      some (d :: descriptions, data)

/-- The number of descriptions: an `int`, as a `size_t`. -/
def nDesc (sizeStr : List Char) : ℕ := (atoi sizeStr).toInt64.toUInt64.toNat

/-- `deserialize( ConnectionDescriptions )`. -/
def deserializeDescriptions (data : List Char) : Option (List ConnectionDescription × List Char) :=
  match cut '#' data with
  | none => none
  | some (sizeStr, data) =>
      if sizeStr = [] ∨ (sizeStr.headD ' ').isDigit = false then none
      else readDescriptions (nDesc sizeStr) data

structure Node (Id : Type) where
  id : Id
  bigEndian : Bool
  descriptions : List ConnectionDescription
  deriving DecidableEq

section Node

variable {Id : Type} (print : Id → List Char) (parse : List Char → Id) (major minor : ℤ)

namespace Node

/-- `Node::serialize`, with the version of the library. -/
def serialize (n : Node Id) : List Char :=
  decimalInt major ++ '#' :: (decimalInt minor ++ '#' :: (print n.id ++ '#' ::
    ((if n.bigEndian then ['1'] else ['0']) ++ '#' :: serializeDescriptions n.descriptions)))

def field (data : List Char) : Option (List Char × List Char) :=
  match cut '#' data with
  | none => none
  | some (text, data) => if text = [] then none else some (text, data)

/-- `Node::deserialize`. Another version of the library is only warned about, and the byte order is
extracted from a stream as a `bool`: any number but zero is `true`. -/
def deserialize (data : List Char) : Option (Node Id × List Char) := do
  let (_, data) ← field data
  let (_, data) ← field data
  let (id, data) ← field data
  let (bigEndian, data) ← field data
  let (descriptions, data) ← deserializeDescriptions data
  some (⟨parse id, decide (strtol bigEndian ≠ 0), descriptions⟩, data)

end Node

end Node

theorem cut_append {separator : Char} {text : List Char} (h : separator ∉ text)
    (data : List Char) : cut separator (text ++ separator :: data) = some (text, data) := by
  induction text with
  | nil => exact if_pos rfl
  | cons c text ih =>
      have hc : c ≠ separator := fun he => h (he ▸ List.mem_cons_self)
      have hrest : separator ∉ text := fun hmem => h (List.mem_cons_of_mem _ hmem)
      rw [List.cons_append, cut, if_neg hc, ih hrest]
      rfl

theorem cut_eq_some_iff {separator : Char} {text before after : List Char} :
    cut separator text = some (before, after) ↔
      text = before ++ separator :: after ∧ separator ∉ before := by
  constructor
  · intro h
    induction text generalizing before after with
    | nil => cases h
    | cons c text ih =>
        rw [cut] at h
        split_ifs at h with hc
        · cases h
          exact ⟨by rw [hc]; rfl, List.not_mem_nil⟩
        · obtain ⟨⟨before', after'⟩, hcut, hparts⟩ := Option.map_eq_some_iff.1 h
          cases hparts
          obtain ⟨htext, hnot⟩ := ih hcut
          refine ⟨by rw [htext]; rfl, fun hmem => ?_⟩
          rcases List.mem_cons.1 hmem with he | hmem
          · exact hc he.symm
          · exact hnot hmem
  · rintro ⟨rfl, h⟩
    exact cut_append h after

theorem cut_eq_none_iff {separator : Char} {text : List Char} :
    cut separator text = none ↔ separator ∉ text := by
  induction text with
  | nil => exact iff_of_true rfl List.not_mem_nil
  | cons c text ih =>
      rw [cut, List.mem_cons, not_or]
      split_ifs with hc
      · exact iff_of_false (fun h => by cases h) (fun h => h.1 hc.symm)
      · rw [Option.map_eq_none_iff, ih]
        exact ⟨fun h => ⟨fun he => hc he.symm, h⟩, fun h => h.2⟩

def ConnectionType.Named (type : ConnectionType) : Prop := type ≠ .ib ∧ type ≠ .multicast

instance (type : ConnectionType) : Decidable type.Named := inferInstanceAs (Decidable (_ ∧ _))

theorem getConnectionType_print {type : ConnectionType} (h : type.Named) :
    getConnectionType type.print = type ∧ '#' ∉ type.print := by
  cases type with
  | ib => exact absurd rfl h.1
  | multicast => exact absurd rfl h.2
  | none | tcpip | sdp | pipe | namedPipe | rdma | udt | rsp => decide

/-- A description whose texts do not contain the separator. -/
structure ConnectionDescription.Plain (d : ConnectionDescription) : Prop where
  type : d.type.Named
  hostname : '#' ∉ d.hostname
  interfacename : '#' ∉ d.interfacename
  filename : '#' ∉ d.filename

theorem ConnectionDescription.fromString_serialize {d : ConnectionDescription} (h : d.Plain)
    (d₀ : ConnectionDescription) (rest : List Char) :
    d₀.fromString (d.serialize ++ rest) = some (d, rest) := by
  obtain ⟨htype, hname⟩ := getConnectionType_print h.type
  have hport : '#' ∉ decimal d.port.toNat := not_mem_decimalInt d.port.toNat
  have hlt := d.port.toNat_lt
  have hread : UInt16.ofInt (atoi (decimal d.port.toNat)).toInt = d.port := by
    rw [toInt_atoi_decimal (by omega), UInt16.ofInt,
      Int.emod_eq_of_lt (Int.natCast_nonneg _) (by exact_mod_cast hlt), Int.toNat_natCast,
      UInt16.ofNat_toNat]
  simp only [fromString, serialize, List.append_assoc, List.cons_append, List.nil_append,
    cut_append hname, cut_append (not_mem_decimalInt d.bandwidth.toInt), cut_append h.hostname,
    cut_append h.interfacename, cut_append hport, cut_append h.filename, Option.bind_eq_bind,
    Option.bind_some, htype, atoi_decimalInt, hread]

theorem readDescriptions_serialize {descriptions : List ConnectionDescription}
    (h : ∀ d ∈ descriptions, d.Plain) (rest : List Char) :
    readDescriptions descriptions.length
      (descriptions.flatMap ConnectionDescription.serialize ++ rest) = some (descriptions, rest) := by
  induction descriptions with
  | nil => rfl
  | cons d descriptions ih =>
      have hrest := ih (fun d' hd' => h d' (List.mem_cons_of_mem _ hd'))
      simp only [List.length_cons, readDescriptions, List.flatMap_cons, List.append_assoc,
        ConnectionDescription.fromString_serialize (h d List.mem_cons_self), hrest,
        Option.bind_eq_bind, Option.bind_some]

theorem nDesc_decimal {n : ℕ} (h : n < 2 ^ 31) : nDesc (decimal n) = n := by
  have hread := toInt_atoi_decimal h
  rw [← Int32.toInt_toInt64, ← Int64.toInt_toBitVec, BitVec.toInt_eq_toNat_cond] at hread
  change (atoi (decimal n)).toInt64.toBitVec.toNat = n
  split_ifs at hread <;> omega

theorem deserializeDescriptions_serialize {descriptions : List ConnectionDescription}
    (h : ∀ d ∈ descriptions, d.Plain) (hlength : descriptions.length < 2 ^ 31) (rest : List Char) :
    deserializeDescriptions (serializeDescriptions descriptions ++ rest) =
      some (descriptions, rest) := by
  have hsize : '#' ∉ decimal descriptions.length := not_mem_decimalInt descriptions.length
  obtain ⟨c, ds, hdecimal⟩ := List.exists_cons_of_ne_nil (decimal_ne_nil descriptions.length)
  have hdigit : c.isDigit = true := by
    apply isDigit_of_mem_decimal (n := descriptions.length)
    rw [hdecimal]
    exact List.mem_cons_self
  have hguard : ¬ (decimal descriptions.length = [] ∨
      ((decimal descriptions.length).headD ' ').isDigit = false) := by
    rw [hdecimal]
    simp [hdigit]
  simp only [deserializeDescriptions, serializeDescriptions, List.append_assoc, List.cons_append,
    cut_append hsize, if_neg hguard, nDesc_decimal hlength, readDescriptions_serialize h rest]

theorem Node.field_append {text : List Char} (h : '#' ∉ text) (hne : text ≠ []) (data : List Char) :
    field (text ++ '#' :: data) = some (text, data) := by
  rw [field, cut_append h]
  exact if_neg hne

section RoundTrip

variable {Id : Type} {print : Id → List Char} {parse : List Char → Id}

/-- The text form of a node, followed by any text, is read back, and exactly the further text is
left. The number of descriptions is read as an `int`. -/
theorem Node.deserialize_serialize {n : Node Id} (hparse : parse (print n.id) = n.id)
    (hprint : '#' ∉ print n.id) (hsome : print n.id ≠ [])
    (hplain : ∀ d ∈ n.descriptions, d.Plain) (hlength : n.descriptions.length < 2 ^ 31)
    (major minor : ℤ) (rest : List Char) :
    deserialize parse (n.serialize print major minor ++ rest) = some (n, rest) := by
  have hendian : '#' ∉ (if n.bigEndian then ['1'] else ['0']) ∧
      (if n.bigEndian then ['1'] else ['0']) ≠ [] ∧
      decide (strtol (if n.bigEndian then ['1'] else ['0']) ≠ 0) = n.bigEndian := by
    cases n.bigEndian <;> decide
  simp only [deserialize, serialize, List.append_assoc, List.cons_append,
    field_append (not_mem_decimalInt _) (decimalInt_ne_nil _), field_append hprint hsome,
    field_append hendian.1 hendian.2.1,
    deserializeDescriptions_serialize hplain hlength, Option.bind_eq_bind, Option.bind_some,
    hendian.2.2, hparse]

/-- The text form of identifiers: two numbers in hexadecimal. -/
def printID (id : UInt64 × UInt64) : List Char :=
  Nat.toDigits 16 id.1.toNat ++ ':' :: Nat.toDigits 16 id.2.toNat

def hexValue (text : List Char) : UInt64 :=
  UInt64.ofNat (text.foldl (fun v c =>
    16 * v + if c.isDigit then c.toNat - '0'.toNat else c.toNat - 'a'.toNat + 10) 0)

def parseID (text : List Char) : UInt64 × UInt64 :=
  match cut ':' text with
  | none => (0, hexValue text)
  | some (high, low) => (hexValue high, hexValue low)

/-- A node with a named pipe without names and a multicast group. -/
theorem Node.deserialize_serialize_two :
    let n : Node (UInt64 × UInt64) := ⟨(0xf3, 10), true,
      [⟨.namedPipe, -5, 0, [], [], "pipe".toList⟩,
        ⟨.rsp, 1000, 65535, "h:1".toList, "eth".toList, []⟩]⟩
    deserialize parseID (n.serialize printID 1 2 ++ "1#x".toList) = some (n, "1#x".toList) := by
  intro n
  refine deserialize_serialize (by decide) (by decide) (by decide) (fun d hd => ?_) (by decide) 1 2 _
  simp only [n, List.mem_cons, List.not_mem_nil, or_false] at hd
  obtain rfl | rfl := hd
  · exact ⟨by decide, by decide, by decide, by decide⟩
  · exact ⟨by decide, by decide, by decide, by decide⟩

end RoundTrip

end Collage.Description
