import Collage.Node.Description

/-!
# Truncated descriptions

A list of connection descriptions has its length in front. When no separator is left, what is behind
the last one is read in the form for humans, in which any text without a colon is the name of a
host, the empty one too. A text that is cut off behind a description, or behind the length, is
accepted as a list with descriptions of this form.
-/

namespace Collage.Description

def SixFields (text : List Char) : Prop :=
  ∃ fields : List (List Char), fields.length = 6 ∧ (∀ f ∈ fields, '#' ∉ f) ∧
    text = fields.flatMap (fun f => f ++ ['#'])

def KnownType (text : List Char) : Prop :=
  getConnectionType (text.takeWhile (fun c => c ≠ '#')) ≠ .none

instance (text : List Char) : Decidable (KnownType text) := inferInstanceAs (Decidable (_ ≠ _))

/-- What follows the first colon of the form for humans are ports and names of types. -/
def Human (text : List Char) : Prop :=
  ∀ hostname rest, cut ':' text = some (hostname, rest) → ∀ token ∈ rest.splitOn ':',
    (token ≠ [] ∧ (token.headD ' ').isDigit = true) ∨ getConnectionType token ≠ .none

/-- What is read is a number and as many descriptions of known types, and no others. -/
def Complete (text : List Char) (descriptions : List ConnectionDescription) (rest : List Char) :
    Prop :=
  ∃ (sizeStr : List Char) (texts : List (List Char)),
    text = sizeStr ++ '#' :: (texts.flatten ++ rest) ∧
    sizeStr ≠ [] ∧ (∀ c ∈ sizeStr, c.isDigit = true) ∧ ofDigitChars sizeStr = texts.length ∧
    (∀ t ∈ texts, SixFields t ∧ KnownType t) ∧ descriptions.length = texts.length

/-- A length that begins with a digit, and behind it as many descriptions as are read for it, where
the length is not their number or a type is unknown, or fewer descriptions and a text without a
separator. -/
structure Slips (text : List Char) (sizeStr : List Char) (texts : List (List Char))
    (rest : List Char) : Prop where
  split : text = sizeStr ++ '#' :: (texts.flatten ++ rest)
  size : '#' ∉ sizeStr ∧ (sizeStr.headD ' ').isDigit = true
  fields : ∀ t ∈ texts, SixFields t
  slip : (nDesc sizeStr = texts.length ∧
      ((∃ c ∈ sizeStr, c.isDigit = false) ∨ ofDigitChars sizeStr ≠ texts.length ∨
        ∃ t ∈ texts, ¬ KnownType t)) ∨
    (texts.length < nDesc sizeStr ∧ '#' ∉ rest ∧ Human rest)

namespace SixFields

variable {text text' : List Char}

theorem count_separators (h : SixFields text) : text.count '#' = 6 := by
  obtain ⟨fields, hlength, hfields, rfl⟩ := h
  rw [← hlength]
  clear hlength
  induction fields with
  | nil => rfl
  | cons f fields ih =>
      have hf : f.count '#' = 0 := List.count_eq_zero.2 (hfields f List.mem_cons_self)
      have hrest := ih (fun f' hf' => hfields f' (List.mem_cons_of_mem _ hf'))
      simp [List.count_append, hf, hrest]

/-- Six fields are told apart from what follows them. -/
theorem append_inj (h : SixFields text) (h' : SixFields text') {rest rest' : List Char}
    (heq : text ++ rest = text' ++ rest') : text = text' ∧ rest = rest' := by
  obtain ⟨fields, hlength, hfields, rfl⟩ := h
  obtain ⟨fields', hlength', hfields', rfl⟩ := h'
  suffices hsuffices : fields = fields' ∧ rest = rest' from ⟨by rw [hsuffices.1], hsuffices.2⟩
  rw [← hlength'] at hlength
  clear hlength'
  induction fields generalizing fields' with
  | nil =>
      obtain rfl := List.length_eq_zero_iff.1 hlength.symm
      exact ⟨rfl, heq⟩
  | cons f fields ih =>
      match fields', hlength with
      | f' :: fields', hlength =>
          rw [List.flatMap_cons, List.flatMap_cons, List.append_assoc, List.append_assoc,
            List.append_assoc, List.append_assoc, List.singleton_append, List.singleton_append] at heq
          have hcut := cut_append (hfields f List.mem_cons_self)
            (fields.flatMap (fun f => f ++ ['#']) ++ rest)
          rw [heq, cut_append (hfields' f' List.mem_cons_self), Option.some.injEq, Prod.mk.injEq]
            at hcut
          obtain ⟨htail, hrest⟩ := ih (fun g hg => hfields g (List.mem_cons_of_mem _ hg)) fields'
            (Nat.succ.inj hlength) (fun g hg => hfields' g (List.mem_cons_of_mem _ hg)) hcut.2.symm
          exact ⟨by rw [hcut.1, htail], hrest⟩

end SixFields

theorem flatten_append_inj {texts texts' : List (List Char)} (h : ∀ t ∈ texts, SixFields t)
    (h' : ∀ t ∈ texts', SixFields t) (hlength : texts.length = texts'.length)
    {rest rest' : List Char} (heq : texts.flatten ++ rest = texts'.flatten ++ rest') :
    texts = texts' := by
  induction texts generalizing texts' with
  | nil => exact (List.length_eq_zero_iff.1 hlength.symm).symm
  | cons t texts ih =>
      match texts', hlength with
      | t' :: texts', hlength =>
          rw [List.flatten_cons, List.flatten_cons, List.append_assoc, List.append_assoc] at heq
          obtain ⟨rfl, hrest⟩ := (h t List.mem_cons_self).append_inj (h' t' List.mem_cons_self) heq
          rw [ih (fun s hs => h s (List.mem_cons_of_mem _ hs))
            (fun s hs => h' s (List.mem_cons_of_mem _ hs)) (Nat.succ.inj hlength) hrest]

theorem count_flatten {texts : List (List Char)} (h : ∀ t ∈ texts, SixFields t) :
    texts.flatten.count '#' = 6 * texts.length := by
  induction texts with
  | nil => rfl
  | cons t texts ih =>
      rw [List.flatten_cons, List.count_append, (h t List.mem_cons_self).count_separators,
        ih (fun s hs => h s (List.mem_cons_of_mem _ hs)), List.length_cons]
      omega

namespace ConnectionDescription

variable (d : ConnectionDescription)

theorem readToken_isSome_iff (token : List Char) :
    (d.readToken token).isSome = true ↔
      (token ≠ [] ∧ (token.headD ' ').isDigit = true) ∨ getConnectionType token ≠ .none := by
  unfold readToken
  by_cases hport : token ≠ [] ∧ (token.headD ' ').isDigit = true
  · rw [if_pos hport]
    exact iff_of_true rfl (Or.inl hport)
  · rw [if_neg hport, or_iff_right hport]
    cases getConnectionType token <;> simp

theorem readTokens_isSome_iff (tokens : List (List Char)) :
    (d.readTokens tokens).isSome = true ↔ ∀ token ∈ tokens,
      (token ≠ [] ∧ (token.headD ' ').isDigit = true) ∨ getConnectionType token ≠ .none := by
  induction tokens generalizing d with
  | nil => simp [readTokens]
  | cons token tokens ih =>
      rw [List.forall_mem_cons, ← d.readToken_isSome_iff, readTokens]
      cases hread : d.readToken token with
      | none => simp
      | some d' =>
          rw [Option.bind_some, ih]
          simp

theorem fromString_sixFields {text : List Char} (h : SixFields text) (rest : List Char) :
    ∃ d', d.fromString (text ++ rest) = some (d', rest) := by
  obtain ⟨fields, hlength, hfields, rfl⟩ := h
  match fields, hlength with
  | [f₁, f₂, f₃, f₄, f₅, f₆], _ =>
      simp only [List.forall_mem_cons] at hfields
      obtain ⟨h₁, h₂, h₃, h₄, h₅, h₆, -⟩ := hfields
      simp [fromString, cut_append h₁, cut_append h₂, cut_append h₃, cut_append h₄, cut_append h₅,
        cut_append h₆]

theorem fromString_of_not_mem {text : List Char} (h : '#' ∉ text) :
    (Human text → ∃ d', d.fromString text = some (d', [])) ∧
      ∀ d' rest, d.fromString text = some (d', rest) → Human text ∧ rest = [] := by
  rw [fromString, cut_eq_none_iff.2 h]
  cases hcut : cut ':' text with
  | none =>
      refine ⟨fun _ => ⟨_, rfl⟩, fun d' rest hread => ⟨fun hostname rest' hcut' => ?_, ?_⟩⟩
      · rw [hcut] at hcut'
        cases hcut'
      · cases hread
        rfl
  | some parts =>
      obtain ⟨hostname, tail⟩ := parts
      have htokens := readTokens_isSome_iff { d with type := .tcpip, hostname := hostname }
        (tail.splitOn ':')
      constructor
      · intro hhuman
        obtain ⟨d', hd'⟩ := Option.isSome_iff_exists.1 (htokens.2 (hhuman hostname tail hcut))
        exact ⟨d', by simp [hd']⟩
      · intro d' rest hread
        obtain ⟨d'', hd'', hparts⟩ := Option.map_eq_some_iff.1 hread
        cases hparts
        refine ⟨fun hostname' tail' hcut' => ?_, rfl⟩
        rw [hcut] at hcut'
        cases hcut'
        exact htokens.1 (by rw [hd'']; rfl)

theorem fromString_cases {data rest : List Char} {d' : ConnectionDescription}
    (h : d.fromString data = some (d', rest)) :
    (∃ t, SixFields t ∧ data = t ++ rest) ∨ ('#' ∉ data ∧ Human data ∧ rest = []) := by
  cases hcut : cut '#' data with
  | none =>
      have hmem := cut_eq_none_iff.1 hcut
      exact Or.inr ⟨hmem, (d.fromString_of_not_mem hmem).2 d' rest h⟩
  | some parts =>
      rw [fromString, hcut] at h
      simp only [Option.bind_eq_bind, Option.bind_eq_some_iff, Option.some.injEq] at h
      obtain ⟨⟨f₂, r₂⟩, h₂, ⟨f₃, r₃⟩, h₃, ⟨f₄, r₄⟩, h₄, ⟨f₅, r₅⟩, h₅, ⟨f₆, r₆⟩, h₆, hd⟩ := h
      cases hd
      rw [cut_eq_some_iff] at hcut h₂ h₃ h₄ h₅ h₆
      refine Or.inl ⟨_, ⟨[parts.1, f₂, f₃, f₄, f₅, f₆], rfl, ?_, rfl⟩, ?_⟩
      · simp only [List.forall_mem_cons]
        exact ⟨hcut.2, h₂.2, h₃.2, h₄.2, h₅.2, h₆.2, fun _ hf => absurd hf List.not_mem_nil⟩
      · dsimp only at h₃ h₄ h₅ h₆
        rw [hcut.1, h₂.1, h₃.1, h₄.1, h₅.1, h₆.1]
        simp

end ConnectionDescription

theorem readDescriptions_length {n : ℕ} {data rest : List Char}
    {descriptions : List ConnectionDescription}
    (h : readDescriptions n data = some (descriptions, rest)) : descriptions.length = n := by
  induction n generalizing data descriptions with
  | zero =>
      cases h
      rfl
  | succ n ih =>
      simp only [readDescriptions, Option.bind_eq_bind, Option.bind_eq_some_iff,
        Option.some.injEq] at h
      obtain ⟨⟨d, data'⟩, -, ⟨descriptions', rest'⟩, hrest, hd⟩ := h
      cases hd
      rw [List.length_cons, ih hrest]

theorem readDescriptions_cases {n : ℕ} {data rest : List Char}
    {descriptions : List ConnectionDescription}
    (h : readDescriptions n data = some (descriptions, rest)) :
    ∃ texts : List (List Char), (∀ t ∈ texts, SixFields t) ∧
      ((texts.length = n ∧ data = texts.flatten ++ rest) ∨
        ∃ tail, texts.length < n ∧ data = texts.flatten ++ tail ∧ '#' ∉ tail ∧ Human tail ∧
          rest = []) := by
  induction n generalizing data descriptions with
  | zero =>
      cases h
      exact ⟨[], fun _ ht => absurd ht List.not_mem_nil, Or.inl ⟨rfl, rfl⟩⟩
  | succ n ih =>
      simp only [readDescriptions, Option.bind_eq_bind, Option.bind_eq_some_iff,
        Option.some.injEq] at h
      obtain ⟨⟨d, data'⟩, hfirst, ⟨descriptions', rest'⟩, hrest, hd⟩ := h
      cases hd
      obtain ⟨texts, htexts, hcases⟩ := ih hrest
      dsimp only at hcases
      rcases ConnectionDescription.fromString_cases _ hfirst with ⟨t, ht, hdata⟩ |
        ⟨hmem, hhuman, hnil⟩
      · refine ⟨t :: texts, List.forall_mem_cons.2 ⟨ht, htexts⟩, ?_⟩
        rcases hcases with ⟨hlength, hdata'⟩ | ⟨tail, hlength, hdata', htail⟩
        · exact Or.inl ⟨congrArg Nat.succ hlength, by
            rw [hdata, hdata', List.flatten_cons, List.append_assoc]⟩
        · exact Or.inr ⟨tail, Nat.succ_lt_succ hlength, by
            rw [hdata, hdata', List.flatten_cons, List.append_assoc], htail⟩
      · refine ⟨[], fun _ ht => absurd ht List.not_mem_nil,
          Or.inr ⟨data, Nat.succ_pos n, rfl, hmem, hhuman, ?_⟩⟩
        rcases hcases with ⟨-, hdata'⟩ | ⟨-, -, -, -, -, hrest⟩
        · rw [hnil] at hdata'
          exact (List.append_eq_nil_iff.1 hdata'.symm).2
        · exact hrest

theorem readDescriptions_texts {texts : List (List Char)} (h : ∀ t ∈ texts, SixFields t)
    (rest : List Char) :
    ∃ descriptions, readDescriptions texts.length (texts.flatten ++ rest) =
      some (descriptions, rest) := by
  induction texts with
  | nil => exact ⟨[], rfl⟩
  | cons t texts ih =>
      obtain ⟨d, hd⟩ := ConnectionDescription.default.fromString_sixFields
        (h t List.mem_cons_self) (texts.flatten ++ rest)
      obtain ⟨descriptions, hrest⟩ := ih (fun s hs => h s (List.mem_cons_of_mem _ hs))
      refine ⟨d :: descriptions, ?_⟩
      rw [List.flatten_cons, List.append_assoc, List.length_cons, readDescriptions]
      simp [hd, hrest]

theorem readDescriptions_human {tail : List Char} (hmem : '#' ∉ tail) (hhuman : Human tail)
    (n : ℕ) : ∃ descriptions, readDescriptions (n + 1) tail = some (descriptions, []) := by
  induction n generalizing tail with
  | zero =>
      obtain ⟨d, hd⟩ := (ConnectionDescription.default.fromString_of_not_mem hmem).1 hhuman
      exact ⟨[d], by simp [readDescriptions, hd]⟩
  | succ n ih =>
      obtain ⟨d, hd⟩ := (ConnectionDescription.default.fromString_of_not_mem hmem).1 hhuman
      have hempty : Human [] := fun hostname rest hcut => by cases hcut
      obtain ⟨descriptions, hrest⟩ := ih List.not_mem_nil hempty
      refine ⟨d :: descriptions, ?_⟩
      rw [readDescriptions]
      simp [hd, hrest]

theorem readDescriptions_append {texts : List (List Char)} (h : ∀ t ∈ texts, SixFields t)
    {tail : List Char} (hmem : '#' ∉ tail) (hhuman : Human tail) {n : ℕ} (hn : texts.length < n) :
    ∃ descriptions, readDescriptions n (texts.flatten ++ tail) = some (descriptions, []) := by
  induction texts generalizing n with
  | nil =>
      obtain ⟨m, rfl⟩ := Nat.exists_eq_succ_of_ne_zero hn.ne'
      exact readDescriptions_human hmem hhuman m
  | cons t texts ih =>
      obtain ⟨m, rfl⟩ := Nat.exists_eq_succ_of_ne_zero (Nat.ne_zero_of_lt hn)
      obtain ⟨d, hd⟩ := ConnectionDescription.default.fromString_sixFields
        (h t List.mem_cons_self) (texts.flatten ++ tail)
      obtain ⟨descriptions, hrest⟩ := ih (fun s hs => h s (List.mem_cons_of_mem _ hs))
        (Nat.lt_of_succ_lt_succ hn)
      refine ⟨d :: descriptions, ?_⟩
      rw [List.flatten_cons, List.append_assoc, readDescriptions]
      simp [hd, hrest]

theorem deserializeDescriptions_eq {sizeStr : List Char} (hmem : '#' ∉ sizeStr)
    (hdigit : (sizeStr.headD ' ').isDigit = true) (data : List Char) :
    deserializeDescriptions (sizeStr ++ '#' :: data) =
      readDescriptions (nDesc sizeStr) data := by
  have hne : sizeStr ≠ [] := by
    rintro rfl
    cases hdigit
  rw [deserializeDescriptions, cut_append hmem]
  exact if_neg (not_or.2 ⟨hne, by rw [hdigit]; decide⟩)

theorem deserializeDescriptions_cases {text rest : List Char}
    {descriptions : List ConnectionDescription}
    (h : deserializeDescriptions text = some (descriptions, rest)) :
    ∃ sizeStr data, '#' ∉ sizeStr ∧ (sizeStr.headD ' ').isDigit = true ∧
      text = sizeStr ++ '#' :: data ∧
      readDescriptions (nDesc sizeStr) data = some (descriptions, rest) := by
  cases hcut : cut '#' text with
  | none =>
      rw [deserializeDescriptions, hcut] at h
      cases h
  | some parts =>
      obtain ⟨sizeStr, data⟩ := parts
      obtain ⟨htext, hmem⟩ := cut_eq_some_iff.1 hcut
      have hdigit : (sizeStr.headD ' ').isDigit = true := by
        by_contra hnot
        rw [deserializeDescriptions, hcut] at h
        simp only [if_pos (Or.inr (by simpa using hnot) :
          sizeStr = [] ∨ (sizeStr.headD ' ').isDigit = false)] at h
        cases h
      rw [htext, deserializeDescriptions_eq hmem hdigit] at h
      exact ⟨sizeStr, data, hmem, hdigit, htext, h⟩

theorem Complete.exists_fields {text rest : List Char} {descriptions : List ConnectionDescription}
    (h : Complete text descriptions rest) :
    ∃ (sizeStr : List Char) (texts : List (List Char)), '#' ∉ sizeStr ∧
      text = sizeStr ++ '#' :: (texts.flatten ++ rest) ∧ (∀ c ∈ sizeStr, c.isDigit = true) ∧
      ofDigitChars sizeStr = texts.length ∧ (∀ t ∈ texts, SixFields t ∧ KnownType t) ∧
      descriptions.length = texts.length := by
  obtain ⟨sizeStr, texts, htext, -, hdigits, hrest⟩ := h
  exact ⟨sizeStr, texts, fun hmem => (ne_of_isDigit (hdigits _ hmem)).2.2.1 rfl, htext, hdigits,
    hrest⟩

/-- What is accepted is complete, unless it slips through. -/
theorem complete_iff_not_slips (text : List Char) :
    (∀ descriptions rest, deserializeDescriptions text = some (descriptions, rest) →
      Complete text descriptions rest) ↔ ¬ ∃ sizeStr texts rest, Slips text sizeStr texts rest := by
  constructor
  · rintro hcomplete ⟨sizeStr, texts, rest, hsplit, ⟨hmem, hdigit⟩, hfields, hslip⟩
    have hread := deserializeDescriptions_eq hmem hdigit (texts.flatten ++ rest)
    have hsame : ∀ {sizeStr' : List Char} {texts' : List (List Char)} {rest' : List Char},
        '#' ∉ sizeStr' → text = sizeStr' ++ '#' :: (texts'.flatten ++ rest') →
          sizeStr' = sizeStr ∧ texts'.flatten ++ rest' = texts.flatten ++ rest := by
      intro sizeStr' texts' rest' hmem' htext
      have hcut := cut_append hmem' (texts'.flatten ++ rest')
      rw [← htext, hsplit, cut_append hmem, Option.some.injEq, Prod.mk.injEq] at hcut
      exact ⟨hcut.1.symm, hcut.2.symm⟩
    rcases hslip with ⟨hsize, hbad⟩ | ⟨hfew, htail, hhuman⟩
    · obtain ⟨descriptions, htexts⟩ := readDescriptions_texts hfields rest
      have hlength := readDescriptions_length htexts
      rw [hsize, htexts, ← hsplit] at hread
      obtain ⟨sizeStr', texts', hmem', htext, hdigits, hsize', hknown, hlength'⟩ :=
        (hcomplete descriptions rest hread).exists_fields
      obtain ⟨rfl, hflat⟩ := hsame hmem' htext
      have heq : texts' = texts := flatten_append_inj (fun t ht => (hknown t ht).1) hfields
        (hlength'.symm.trans hlength) hflat
      rw [heq] at hsize' hknown
      rcases hbad with ⟨c, hc, hnot⟩ | hother | ⟨t, ht, hunknown⟩
      · rw [hdigits c hc] at hnot
        cases hnot
      · exact hother hsize'
      · exact hunknown (hknown t ht).2
    · obtain ⟨descriptions, htexts⟩ := readDescriptions_append hfields htail hhuman hfew
      have hlength := readDescriptions_length htexts
      rw [htexts, ← hsplit] at hread
      obtain ⟨sizeStr', texts', hmem', htext, -, -, hknown, hlength'⟩ :=
        (hcomplete descriptions [] hread).exists_fields
      have hcount := congrArg (List.count '#') (hsame hmem' htext).2
      rw [List.count_append, List.count_append, count_flatten (fun t ht => (hknown t ht).1),
        count_flatten hfields, List.count_eq_zero.2 htail, List.count_nil] at hcount
      omega
  · intro hslips descriptions rest hread
    obtain ⟨sizeStr, data, hmem, hdigit, htext, hdata⟩ := deserializeDescriptions_cases hread
    have hlength := readDescriptions_length hdata
    obtain ⟨texts, hfields, ⟨hsize, hflat⟩ | ⟨tail, hfew, hflat, htail, hhuman, hrest⟩⟩ :=
      readDescriptions_cases hdata
    · have hsplit : text = sizeStr ++ '#' :: (texts.flatten ++ rest) := by rw [htext, hflat]
      have hno : ∀ bad, ((∃ c ∈ sizeStr, c.isDigit = false) ∨ ofDigitChars sizeStr ≠ texts.length ∨
          ∃ t ∈ texts, ¬ KnownType t) → bad := fun _ hbad => absurd
        ⟨sizeStr, texts, rest, hsplit, ⟨hmem, hdigit⟩, hfields, Or.inl ⟨hsize.symm, hbad⟩⟩ hslips
      refine ⟨sizeStr, texts, hsplit, ?_, fun c hc => ?_, ?_, fun t ht => ⟨hfields t ht, ?_⟩,
        hlength.trans hsize.symm⟩
      · rintro rfl
        cases hdigit
      · by_contra hnot
        exact hno _ (Or.inl ⟨c, hc, by simpa using hnot⟩)
      · by_contra hnot
        exact hno _ (Or.inr (Or.inl hnot))
      · by_contra hnot
        exact hno _ (Or.inr (Or.inr ⟨t, ht, hnot⟩))
    · exact absurd ⟨sizeStr, texts, tail, by rw [htext, hflat], ⟨hmem, hdigit⟩, hfields,
        Or.inr ⟨hfew, htail, hhuman⟩⟩ hslips

/-- The length of a list with one description, without the description. -/
theorem length_is_accepted :
    let d : ConnectionDescription := ⟨.tcpip, 0, 4242, "host".toList, [], []⟩
    "1#".toList <+: serializeDescriptions [d] ∧ "1#".toList ≠ serializeDescriptions [d] ∧
      deserializeDescriptions "1#".toList =
        some ([{ ConnectionDescription.default with hostname := [] }], []) ∧
      ¬ Complete "1#".toList [{ ConnectionDescription.default with hostname := [] }] [] := by
  refine ⟨by decide, by decide, by decide, fun h => ?_⟩
  obtain ⟨sizeStr, texts, hmem, htext, -, -, htexts, hlength⟩ := h.exists_fields
  have hcount := congrArg (List.count '#') htext
  rw [List.count_append, List.count_cons_self, List.append_nil,
    count_flatten (fun t ht => (htexts t ht).1),
    show "1#".toList.count '#' = 1 by decide] at hcount
  rw [List.length_singleton] at hlength
  omega

end Collage.Description
