import Mathlib.Data.List.TakeWhile
import Nmdns.Services

/-!
# The name of the host

`src/services.rs`: the advertised host name is made of a text, the configured one or that of the
system.  The text is cut at its first dot, `.local.` is appended, and the name library reads the
result; if it cannot, the host is called `router.local.`

* `readText`, `readName`: how the name library reads a text, character by character;
* `NameApi.ReadsText`: what is assumed of the library;
* `resolveHostname`;
* `openEscape`: a text ends in a backslash that escapes what follows;
* `resolveHostname_isFqdn`: the result is fully qualified;
* `resolveHostname_iff`: when it is one label under `local`.
-/

namespace Nmdns

/-! ### Reading a name -/

/-- `char::is_control`. -/
def isControl (c : Char) : Bool := c.toNat < 0x20 || (0x7f ≤ c.toNat && c.toNat ≤ 0x9f)

/-- `char::is_whitespace`. -/
def isWhitespace (c : Char) : Bool :=
  let n := c.toNat
  (9 ≤ n && n ≤ 13) || n == 0x20 || n == 0x85 || n == 0xa0 || n == 0x1680 ||
    (0x2000 ≤ n && n ≤ 0x200a) || n == 0x2028 || n == 0x2029 || n == 0x202f || n == 0x205f ||
    n == 0x3000

/-- Where the reader stands: in a label, or after a backslash and up to two digits. -/
inductive TextState
  | label
  | escape1
  | escape2 (i : Char)
  | escape3 (i ii : Char)
  deriving DecidableEq, Repr

section Read

variable (value : Char → Char → Char → Option Char)

/-- The labels of a text, with the label read so far.  `value` is the character that three digits
stand for. -/
def readText : TextState → List Char → List Char → Option (List (List Char))
  | _, label, [] => some (if label = [] then [] else [label])
  | .label, label, c :: cs =>
    if c = '.' then
      if label = [] then none else (readText .label [] cs).map fun labels => label :: labels
    else if c = '\\' then readText .escape1 label cs
    else if isControl c || isWhitespace c then none
    else readText .label (label ++ [c]) cs
  | .escape1, label, c :: cs =>
    if c.isDigit then readText (.escape2 c) label cs else readText .label (label ++ [c]) cs
  | .escape2 i, label, c :: cs => if c.isDigit then readText (.escape3 i c) label cs else none
  | .escape3 i ii, label, c :: cs =>
    if c.isDigit then (value i ii c).bind fun v => readText .label (label ++ [v]) cs else none

/-- A single dot is the root, which has no labels. -/
def readName (text : List Char) : Option (List (List Char)) :=
  if text = ['.'] then some [] else readText value .label [] text

end Read

/-- A label is taken as a sequence of 1 to 63 octets; lower-case letters are taken as they are. -/
def TakenAs (label : List Char) (octets : List UInt8) : Prop :=
  octets ≠ [] ∧ octets.length ≤ 63 ∧
    ((∀ c ∈ label, c.isLower = true) → octets = asBytes (String.ofList label))

/-- The documented behaviour of the name library: what it accepts it reads character by character,
a name is fully qualified if its text ends in an unescaped dot, and the name that stands in the
source is accepted.  Nothing is assumed of the flag of other texts. -/
structure NameApi.ReadsText {ε : Type} (api : NameApi ε)
    (value : Char → Char → Char → Option Char) : Prop where
  reads : ∀ s n, api.fromStr s = .ok n → ∃ labels,
    readName value s.toList = some labels ∧ List.Forall₂ TakenAs labels n.labels
  isFqdn : ∀ s n, api.fromStr s = .ok n → endsInUnescapedDot s.toList = true → n.isFqdn = true
  router : ∃ n, api.fromStr "router.local." = .ok n

/-! ### The name of the host -/

/-- `raw.split('.').next()`: the text before the first dot. -/
def bareOf (raw : String) : String := String.ofList (raw.toList.takeWhile fun c => c != '.')

/-- The text to make a name of: the explicit one, that of the system, or `router`. -/
def rawHostname (explicit system : Option String) : String := (explicit.or system).getD "router"

/-- `resolve_hostname`; `none` is the panic of its `expect`. -/
def resolveHostname {ε : Type} (api : NameApi ε) (explicit system : Option String) : Option Name :=
  match api.fromStr (bareOf (rawHostname explicit system) ++ ".local.") with
  | .ok n => some n
  | .error _ => (api.fromStr "router.local.").toOption

/-- A fully qualified name of two labels, the second of which is `local`. -/
def Name.OneLabelUnderLocal (n : Name) : Prop :=
  n.isFqdn = true ∧ ∃ first, n.labels = [first, asBytes "local"] ∧ first ≠ [] ∧ first.length ≤ 63

/-- The text ends in a backslash that escapes what follows; `escaped` says whether a backslash
precedes it. -/
def openEscape (escaped : Bool) : List Char → Bool
  | [] => escaped
  | c :: cs => openEscape (!escaped && c == '\\') cs

/-- The reader is right after a backslash. -/
def TextState.afterBackslash : TextState → Bool
  | .escape1 => true
  | _ => false

section Suffix

variable {value : Char → Char → Char → Option Char}

/-- The end `local.` of a text. -/
theorem readText_local (label : List Char) :
    readText value .label label ['l', 'o', 'c', 'a', 'l', '.'] =
      some [label ++ ['l', 'o', 'c', 'a', 'l']] := by
  simp [readText, isControl, isWhitespace]

theorem digit_ne_backslash {c : Char} (h : c.isDigit = true) : (c == '\\') = false := by
  refine beq_false_of_ne ?_
  rintro rfl
  cases h

/-- **Where the dot before `local.` ends up.**  After a text without dots it ends a label, unless an
open escape makes it part of one. -/
theorem readText_append_local {bare : List Char} (hdot : '.' ∉ bare) {st : TextState}
    {label : List Char} {labels : List (List Char)}
    (h : readText value st label (bare ++ ['.', 'l', 'o', 'c', 'a', 'l', '.']) = some labels) :
    if openEscape st.afterBackslash bare then ∃ only, labels = [only]
      else ∃ first, labels = [first, ['l', 'o', 'c', 'a', 'l']] := by
  induction bare generalizing st label with
  | nil =>
    rw [List.nil_append] at h
    cases st with
    | label =>
      rw [readText, if_pos rfl] at h
      split_ifs at h
      rw [readText_local, Option.map_some] at h
      cases h
      exact ⟨label, rfl⟩
    | escape1 =>
      -- the dot is escaped, and the label goes on
      rw [readText] at h
      rw [if_neg (by decide), readText_local] at h
      cases h
      exact ⟨_, rfl⟩
    | escape2 i =>
      rw [readText] at h
      rw [if_neg (by decide)] at h
      cases h
    | escape3 i ii =>
      rw [readText] at h
      rw [if_neg (by decide)] at h
      cases h
  | cons c bare ih =>
    rw [List.mem_cons, not_or] at hdot
    obtain ⟨hc, hdot⟩ := hdot
    rw [List.cons_append] at h
    cases st with
    | label =>
      rw [readText] at h
      rw [if_neg (Ne.symm hc)] at h
      split_ifs at h with hback hbad
      · rw [hback]
        exact ih hdot h
      · rw [openEscape, beq_false_of_ne hback]
        exact ih hdot h
    | escape1 =>
      rw [readText] at h
      split_ifs at h <;> exact ih hdot h
    | escape2 i =>
      rw [readText] at h
      split_ifs at h with hdigit
      rw [openEscape, digit_ne_backslash hdigit]
      exact ih hdot h
    | escape3 i ii =>
      rw [readText] at h
      split_ifs at h with hdigit
      obtain ⟨v, -, h⟩ := Option.bind_eq_some_iff.1 h
      rw [openEscape, digit_ne_backslash hdigit]
      exact ih hdot h

end Suffix

/-! ### The result -/

section Resolve

variable {ε : Type} {api : NameApi ε} {value : Char → Char → Char → Option Char}

theorem dot_not_mem_bareOf (raw : String) : '.' ∉ (bareOf raw).toList := by
  intro h
  rw [bareOf, String.toList_ofList] at h
  have hne := List.mem_takeWhile_imp h
  simp at hne

/-- Lower-case letters are taken as they are. -/
theorem TakenAs.local_eq {octets : List UInt8} (h : TakenAs ['l', 'o', 'c', 'a', 'l'] octets) :
    octets = asBytes "local" := by
  have hlower : ['l', 'o', 'c', 'a', 'l'].all Char.isLower = true := rfl
  exact h.2.2 (List.all_eq_true.1 hlower)

/-- A text that ends in `l.` ends in an unescaped dot. -/
theorem endsInUnescapedDot_append (cs : List Char) :
    endsInUnescapedDot (cs ++ ['l', '.']) = true := by
  fun_induction endsInUnescapedDot cs with
  | case1 => rfl
  | case2 => rfl
  | case3 d cs ih => exact ih
  | case4 c cs hdot hback ih =>
    cases cs with
    | nil =>
      by_cases hc : c = '\\'
      · rw [hc]
        rfl
      · rw [List.singleton_append, endsInUnescapedDot]
        · rfl
        all_goals simp [hc]
    | cons d cs =>
      rw [List.cons_append, endsInUnescapedDot]
      · exact ih
      · intro _ hnil
        cases hnil
      · intro _ _ hc _
        exact hback d cs hc rfl

/-- The characters of `bare.local.` -/
theorem toList_append_local (bare : String) :
    (bare ++ ".local.").toList = bare.toList ++ ['.', 'l', 'o', 'c', 'a', 'l', '.'] := by
  rw [String.toList_append]
  rfl

/-- The labels of `bare.local.` -/
theorem readName_append_local {bare : String} (hdot : '.' ∉ bare.toList)
    {labels : List (List Char)} (h : readName value (bare ++ ".local.").toList = some labels) :
    if openEscape false bare.toList then ∃ only, labels = [only]
      else ∃ first, labels = [first, ['l', 'o', 'c', 'a', 'l']] := by
  have hroot : (bare ++ ".local.").toList ≠ ['.'] := by
    intro hroot
    rw [toList_append_local] at hroot
    have hlen := congrArg List.length hroot
    simp at hlen
  rw [readName, if_neg hroot, toList_append_local] at h
  exact readText_append_local hdot h

theorem isFqdn_of_fromStr_local (hapi : api.ReadsText value) {bare : String} {n : Name}
    (h : api.fromStr (bare ++ ".local.") = .ok n) : n.isFqdn = true := by
  refine hapi.isFqdn _ n h ?_
  have hend := endsInUnescapedDot_append (bare.toList ++ ['.', 'l', 'o', 'c', 'a'])
  rw [List.append_assoc] at hend
  rw [toList_append_local]
  exact hend

/-- What the library makes of `bare.local.` -/
theorem fromStr_local (hapi : api.ReadsText value) {bare : String} (hdot : '.' ∉ bare.toList)
    {n : Name} (h : api.fromStr (bare ++ ".local.") = .ok n) :
    n.OneLabelUnderLocal ↔ openEscape false bare.toList = false := by
  obtain ⟨labels, hread, htaken⟩ := hapi.reads _ n h
  have hlabels := readName_append_local hdot hread
  cases hopen : openEscape false bare.toList with
  | true =>
    -- one label only
    rw [hopen, if_pos rfl] at hlabels
    obtain ⟨only, rfl⟩ := hlabels
    refine iff_of_false ?_ Bool.noConfusion
    rintro ⟨-, first, heq, -⟩
    have hlen := htaken.length_eq
    rw [heq] at hlen
    cases hlen
  | false =>
    rw [hopen, if_neg Bool.false_ne_true] at hlabels
    obtain ⟨first, rfl⟩ := hlabels
    refine iff_of_true ⟨isFqdn_of_fromStr_local hapi h, ?_⟩ rfl
    obtain ⟨octets, rest, hfirst, hrest, heq⟩ := List.forall₂_cons_left_iff.1 htaken
    obtain ⟨octets', rest', hlocal, hnil, rfl⟩ := List.forall₂_cons_left_iff.1 hrest
    cases hnil
    rw [hlocal.local_eq] at heq
    exact ⟨octets, heq, hfirst.1, hfirst.2.1⟩

/-- **The advertised name is fully qualified**, whatever its labels are. -/
theorem resolveHostname_isFqdn (hapi : api.ReadsText value) {explicit system : Option String}
    {n : Name} (h : resolveHostname api explicit system = some n) : n.isFqdn = true := by
  unfold resolveHostname at h
  split at h
  · rename_i hparse
    cases h
    exact isFqdn_of_fromStr_local hapi hparse
  · obtain ⟨m, hrouter⟩ := hapi.router
    rw [hrouter] at h
    cases h
    have hbare : "router.local." = "router" ++ ".local." := rfl
    rw [hbare] at hrouter
    exact isFqdn_of_fromStr_local hapi hrouter

/-- **The advertised name is one label under `local`** exactly when the text before the first dot
does not end in a backslash that escapes the dot after it, or the name library rejects the text with
`.local.` appended. -/
theorem resolveHostname_iff (hapi : api.ReadsText value) (explicit system : Option String) :
    ∃ n, resolveHostname api explicit system = some n ∧
      (n.OneLabelUnderLocal ↔
        openEscape false (bareOf (rawHostname explicit system)).toList = false ∨
          ∀ m, api.fromStr (bareOf (rawHostname explicit system) ++ ".local.") ≠ .ok m) := by
  unfold resolveHostname
  cases hparse : api.fromStr (bareOf (rawHostname explicit system) ++ ".local.") with
  | ok n =>
    refine ⟨n, rfl, ?_⟩
    rw [fromStr_local hapi (dot_not_mem_bareOf _) hparse, or_iff_left]
    exact fun hrejected => hrejected n rfl
  | error e =>
    obtain ⟨n, hrouter⟩ := hapi.router
    refine ⟨n, ?_, iff_of_true ?_ (Or.inr ?_)⟩
    · show (api.fromStr "router.local.").toOption = some n
      rw [hrouter]
      rfl
    · have hdot : '.' ∉ "router".toList := by decide
      exact (fromStr_local hapi hdot hrouter).2 (by decide)
    · intro m h
      cases h

end Resolve

/-! ### A backslash before the dot -/

/-- The character of three octal digits. -/
def octalValue (i ii iii : Char) : Option Char :=
  if [i, ii, iii].all fun c => c < '8' then
    some (Char.ofNat ((i.toNat - 48) * 64 + (ii.toNat - 48) * 8 + (iii.toNat - 48)))
  else none

/-- A label of lower-case letters, digits, hyphens, underscores and dots, and of 1 to 63 octets. -/
def textLabel (label : List Char) : Except Unit (List UInt8) :=
  let octets := asBytes (String.ofList label)
  if label.all (fun c => c.isLower || c.isDigit || c == '-' || c == '_' || c == '.') &&
      !octets.isEmpty && octets.length ≤ 63 then .ok octets
  else .error ()

/-- A name library that reads texts as `readName` does. -/
def textApi : NameApi Unit where
  fromStr s :=
    match readName octalValue s.toList with
    | none => .error ()
    | some labels => do
      let octets ← labels.mapM textLabel
      .ok ⟨octets, endsInUnescapedDot s.toList⟩
  fromLabels ls := .ok ⟨ls, true⟩
  appendName m n := .ok ⟨m.labels ++ n.labels, n.isFqdn⟩

theorem takenAs_of_textLabel {label : List Char} {octets : List UInt8}
    (h : textLabel label = .ok octets) : TakenAs label octets := by
  simp only [textLabel] at h
  split at h
  · rename_i hcheck
    cases h
    simp only [Bool.and_eq_true, Bool.not_eq_true', List.isEmpty_eq_false_iff,
      decide_eq_true_eq] at hcheck
    exact ⟨hcheck.1.2, hcheck.2, fun _ => rfl⟩
  · cases h

theorem textApi_fromStr_ok {s : String} {n : Name} (h : textApi.fromStr s = .ok n) :
    ∃ labels octets, readName octalValue s.toList = some labels ∧
      labels.mapM textLabel = .ok octets ∧ n = ⟨octets, endsInUnescapedDot s.toList⟩ := by
  simp only [textApi] at h
  split at h
  · cases h
  · rename_i labels hread
    rw [Except.bind_eq_ok_iff] at h
    obtain ⟨octets, hlabels, h⟩ := h
    cases h
    exact ⟨labels, octets, hread, hlabels, rfl⟩

theorem textApi_readsText : textApi.ReadsText octalValue where
  reads := by
    intro s n h
    obtain ⟨labels, octets, hread, hlabels, rfl⟩ := textApi_fromStr_ok h
    refine ⟨labels, hread, (Except.mapM_eq_ok_iff.1 hlabels).imp ?_⟩
    intro label octets htext
    exact takenAs_of_textLabel htext
  isFqdn := by
    intro s n h hdot
    obtain ⟨labels, octets, -, -, rfl⟩ := textApi_fromStr_ok h
    exact hdot
  router := ⟨⟨[asBytes "router", asBytes "local"], true⟩, by decide +kernel⟩

/-- `foo.example.com` is cut to `foo`. -/
theorem resolveHostname_foo : ∃ n,
    resolveHostname textApi (some "foo.example.com") none = some n ∧ n.OneLabelUnderLocal := by
  obtain ⟨n, hn, hiff⟩ := resolveHostname_iff textApi_readsText (some "foo.example.com") none
  exact ⟨n, hn, hiff.2 (Or.inl (by decide +kernel))⟩

/-- The name `foo\` escapes the dot after it, and the host is advertised under the single label
`foo.local`. -/
theorem resolveHostname_backslash :
    textApi.ReadsText octalValue ∧ ∃ n,
      resolveHostname textApi (some "foo\\") none = some n ∧
      n = ⟨[asBytes "foo.local"], true⟩ ∧ ¬ n.OneLabelUnderLocal := by
  refine ⟨textApi_readsText, ⟨[asBytes "foo.local"], true⟩, by decide +kernel, rfl, ?_⟩
  rintro ⟨-, first, hlabels, -⟩
  cases hlabels

end Nmdns
