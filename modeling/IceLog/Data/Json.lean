import Mathlib.Algebra.BigOperators.Group.List.Basic
import Mathlib.Algebra.Ring.Nat
import Mathlib.Data.List.TakeWhile
import Mathlib.Data.Nat.Notation

/-! JSON texts and the values that they stand for, after RFC 8259. A reader is given fuel, takes
what it reads off the front of the text and leaves the rest. -/

inductive Json where
  | null
  | bool (b : Bool)
  | number (text : List Char)
  | string (s : String)
  | array (elements : List Json)
  | object (members : List (String × Json))

namespace Json

variable {α : Type}

abbrev Reader (α : Type) : Type := List Char → Option (α × List Char)

def isWs (c : Char) : Bool := c = ' ' ∨ c = '\t' ∨ c = '\n' ∨ c = '\r'

def skipWs (cs : List Char) : List Char := cs.dropWhile isWs

def hexValue (c : Char) : Option ℕ :=
  if c.isDigit then some (c.toNat - 48)
  else if 97 ≤ c.toNat ∧ c.toNat ≤ 102 then some (c.toNat - 87)
  else if 65 ≤ c.toNat ∧ c.toNat ≤ 70 then some (c.toNat - 55)
  else none

/-- Four hexadecimal digits. -/
def readHex : Reader ℕ
  | a :: b :: c :: d :: rest => do
    let a ← hexValue a
    let b ← hexValue b
    let c ← hexValue c
    let d ← hexValue d
    return (((a * 16 + b) * 16 + c) * 16 + d, rest)
  | _ => none

/-- The second half of a character whose first half is `n`. -/
def readLowHalf (n : ℕ) : Reader Char
  | '\\' :: 'u' :: rest => (readHex rest).bind fun (l, rest) =>
    if 0xdc00 ≤ l ∧ l < 0xe000 then
      some (Char.ofNat (0x10000 + (n - 0xd800) * 0x400 + (l - 0xdc00)), rest)
    else none
  | _ => none

/-- What follows `\u`. -/
def readUnicode (cs : List Char) : Option (Char × List Char) :=
  (readHex cs).bind fun (n, rest) =>
    if 0xd800 ≤ n ∧ n < 0xdc00 then readLowHalf n rest
    else if 0xdc00 ≤ n ∧ n < 0xe000 then none
    else some (Char.ofNat n, rest)

/-- What follows a backslash. -/
def readEscape : Reader Char
  | '"' :: rest => some ('"', rest)
  | '\\' :: rest => some ('\\', rest)
  | '/' :: rest => some ('/', rest)
  | 'b' :: rest => some ('\x08', rest)
  | 'f' :: rest => some ('\x0c', rest)
  | 'n' :: rest => some ('\n', rest)
  | 'r' :: rest => some ('\r', rest)
  | 't' :: rest => some ('\t', rest)
  | 'u' :: rest => readUnicode rest
  | _ => none

/-- The characters of a string up to the closing quote. -/
def readString : ℕ → Reader (List Char)
  | 0, _ => none
  | _, [] => none
  | n + 1, c :: rest =>
    if c = '"' then some ([], rest)
    else if c = '\\' then do
      let (c, rest) ← readEscape rest
      let (s, rest) ← readString n rest
      return (c :: s, rest)
    else if c.toNat < 0x20 then none
    else do
      let (s, rest) ← readString n rest
      return (c :: s, rest)

/-- At least one digit. -/
def readDigits (cs : List Char) : Option (List Char × List Char) :=
  if cs.takeWhile Char.isDigit = [] then none
  else some (cs.takeWhile Char.isDigit, cs.dropWhile Char.isDigit)

/-- No zero stands before another digit. -/
def readInt : Reader (List Char)
  | '0' :: rest => some (['0'], rest)
  | cs => readDigits cs

def readFraction : Reader (List Char)
  | '.' :: rest => (readDigits rest).map fun (ds, rest) => ('.' :: ds, rest)
  | cs => some ([], cs)

def readSign : Reader (List Char)
  | '+' :: rest => some (['+'], rest)
  | '-' :: rest => some (['-'], rest)
  | cs => some ([], cs)

def readExponent : Reader (List Char)
  | c :: rest =>
    if c = 'e' ∨ c = 'E' then do
      let (sign, rest) ← readSign rest
      let (ds, rest) ← readDigits rest
      return (c :: sign ++ ds, rest)
    else some ([], c :: rest)
  | [] => some ([], [])

def readUnsigned (cs : List Char) : Option (List Char × List Char) := do
  let (int, rest) ← readInt cs
  let (frac, rest) ← readFraction rest
  let (exp, rest) ← readExponent rest
  return (int ++ frac ++ exp, rest)

def readNumber : Reader (List Char)
  | '-' :: rest => (readUnsigned rest).map fun (ds, rest) => ('-' :: ds, rest)
  | cs => readUnsigned cs

/-- One item or more, with commas between them, up to the closing character. -/
def readItems (item : Reader α) (close : Char) : ℕ → Reader (List α)
  | 0, _ => none
  | n + 1, cs => do
    let (x, rest) ← item cs
    match skipWs rest with
    | [] => none
    | c :: rest =>
      if c = close then return ([x], rest)
      else if c = ',' then
        let (xs, rest) ← readItems item close n rest
        return (x :: xs, rest)
      else none

/-- The items of an array or an object, from its opening character on. -/
def readAll (item : Reader α) (close : Char) (n : ℕ) (cs : List Char) :
    Option (List α × List Char) :=
  match skipWs cs with
  | [] => none
  | c :: rest => if c = close then some ([], rest) else readItems item close n cs

def readMember (value : Reader Json) (n : ℕ) (cs : List Char) :
    Option ((String × Json) × List Char) :=
  match skipWs cs with
  | '"' :: rest => do
    let (key, rest) ← readString n rest
    match skipWs rest with
    | ':' :: rest =>
      let (v, rest) ← value rest
      return ((String.ofList key, v), rest)
    | _ => none
  | _ => none

def readValue : ℕ → Reader Json
  | 0, _ => none
  | n + 1, cs =>
    match skipWs cs with
    | 'n' :: 'u' :: 'l' :: 'l' :: rest => some (null, rest)
    | 't' :: 'r' :: 'u' :: 'e' :: rest => some (bool true, rest)
    | 'f' :: 'a' :: 'l' :: 's' :: 'e' :: rest => some (bool false, rest)
    | '"' :: rest => (readString n rest).map fun (s, rest) => (string (String.ofList s), rest)
    | '[' :: rest => (readAll (readValue n) ']' n rest).map fun (l, rest) => (array l, rest)
    | '\x7b' :: rest =>
      (readAll (readMember (readValue n) n) '\x7d' n rest).map fun (l, rest) => (object l, rest)
    | cs => (readNumber cs).map fun (ds, rest) => (number ds, rest)

/-- A text is one value. -/
def readText (n : ℕ) (cs : List Char) : Option Json :=
  (readValue n cs).bind fun (v, rest) => if skipWs rest = [] then some v else none

/-- The text stands for the value: a reader that has fuel enough returns it. -/
def Denotes (text : String) (v : Json) : Prop := ∃ n, readText n text.toList = some v

/-! More fuel changes nothing that has been read. -/

/-- The second reader reads what the first reads. -/
def Extends (read read' : Reader α) : Prop := ∀ cs x, read cs = some x → read' cs = some x

theorem extends_string (n : ℕ) : Extends (readString n) (readString (n + 1)) := by
  induction n with
  | zero =>
    intro cs x h
    cases cs <;> cases h
  | succ n ih =>
    intro cs x h
    cases cs with
    | nil => cases h
    | cons c rest =>
      rw [readString] at h ⊢
      split at h
      · rename_i hc
        rwa [if_pos hc]
      · rename_i hc
        rw [if_neg hc]
        split at h
        · rename_i hb
          rw [if_pos hb]
          obtain ⟨⟨c, rest⟩, he, h⟩ := Option.bind_eq_some_iff.mp h
          obtain ⟨⟨s, rest⟩, hs, h⟩ := Option.bind_eq_some_iff.mp h
          exact Option.bind_eq_some_iff.mpr ⟨_, he, Option.bind_eq_some_iff.mpr ⟨_, ih _ _ hs, h⟩⟩
        · rename_i hb
          rw [if_neg hb]
          split at h
          · cases h
          · rename_i hlt
            rw [if_neg hlt]
            obtain ⟨⟨s, rest⟩, hs, h⟩ := Option.bind_eq_some_iff.mp h
            exact Option.bind_eq_some_iff.mpr ⟨_, ih _ _ hs, h⟩

theorem extends_items {item item' : Reader α} (hi : Extends item item') (close : Char) (n : ℕ) :
    Extends (readItems item close n) (readItems item' close (n + 1)) := by
  induction n with
  | zero => nofun
  | succ n ih =>
    intro cs x h
    rw [readItems] at h ⊢
    obtain ⟨⟨y, rest⟩, hy, h⟩ := Option.bind_eq_some_iff.mp h
    refine Option.bind_eq_some_iff.mpr ⟨_, hi _ _ hy, ?_⟩
    dsimp only at h ⊢
    split at h
    · cases h
    · split at h
      · rename_i hc
        rwa [if_pos hc]
      · rename_i hc
        rw [if_neg hc]
        split at h
        · rename_i hcomma
          rw [if_pos hcomma]
          obtain ⟨⟨ys, rest⟩, hys, h⟩ := Option.bind_eq_some_iff.mp h
          exact Option.bind_eq_some_iff.mpr ⟨_, ih _ _ hys, h⟩
        · cases h

theorem extends_all {item item' : Reader α} (hi : Extends item item') (close : Char) (n : ℕ) :
    Extends (readAll item close n) (readAll item' close (n + 1)) := by
  intro cs x h
  rw [readAll] at h ⊢
  split at h
  · cases h
  · split at h
    · rename_i hc
      rwa [if_pos hc]
    · rename_i hc
      rw [if_neg hc]
      exact extends_items hi close n _ _ h

theorem extends_member {value value' : Reader Json} (hv : Extends value value') (n : ℕ) :
    Extends (readMember value n) (readMember value' (n + 1)) := by
  intro cs x h
  rw [readMember] at h ⊢
  split at h
  · obtain ⟨⟨key, rest⟩, hk, h⟩ := Option.bind_eq_some_iff.mp h
    refine Option.bind_eq_some_iff.mpr ⟨_, extends_string n _ _ hk, ?_⟩
    dsimp only at h ⊢
    split at h
    · obtain ⟨⟨v, rest⟩, hr, h⟩ := Option.bind_eq_some_iff.mp h
      exact Option.bind_eq_some_iff.mpr ⟨_, hv _ _ hr, h⟩
    · cases h
  · cases h

theorem extends_value (n : ℕ) : Extends (readValue n) (readValue (n + 1)) := by
  induction n with
  | zero => nofun
  | succ n ih =>
    intro cs x h
    rw [readValue] at h ⊢
    split at h
    · exact h
    · exact h
    · exact h
    · obtain ⟨⟨s, rest⟩, hs, h⟩ := Option.map_eq_some_iff.mp h
      exact Option.map_eq_some_iff.mpr ⟨_, extends_string n _ _ hs, h⟩
    · obtain ⟨⟨l, rest⟩, hl, h⟩ := Option.map_eq_some_iff.mp h
      exact Option.map_eq_some_iff.mpr ⟨_, extends_all ih _ n _ _ hl, h⟩
    · obtain ⟨⟨l, rest⟩, hl, h⟩ := Option.map_eq_some_iff.mp h
      exact Option.map_eq_some_iff.mpr ⟨_, extends_all (extends_member ih n) _ n _ _ hl, h⟩
    · exact h

theorem extends_text {m n : ℕ} (h : m ≤ n) : Extends (readValue m) (readValue n) := by
  induction h with
  | refl => exact fun _ _ => id
  | step _ ih => exact fun cs x h => extends_value _ _ _ (ih cs x h)

/-- A text stands for one value. -/
theorem Denotes.unique {text : String} {v w : Json} (hv : Denotes text v) (hw : Denotes text w) :
    v = w := by
  have hle : ∀ {m n : ℕ} {v w : Json}, m ≤ n → readText m text.toList = some v →
      readText n text.toList = some w → v = w := by
    intro m n v w hmn hv hw
    obtain ⟨x, hx, hv⟩ := Option.bind_eq_some_iff.mp hv
    rw [readText, extends_text hmn _ _ hx] at hw
    exact Option.some.inj (hv.symm.trans hw)
  obtain ⟨m, hv⟩ := hv
  obtain ⟨n, hw⟩ := hw
  rcases Nat.le_total m n with h | h
  · exact hle h hv hw
  · exact (hle h hw hv).symm

/-! How long a text is at least. -/

/-- A character that stands for itself in a string. -/
def Plain (c : Char) : Prop := c ≠ '"' ∧ c ≠ '\\' ∧ 0x20 ≤ c.toNat

instance (c : Char) : Decidable (Plain c) := inferInstanceAs (Decidable (_ ∧ _))

/-- What is read took `size` characters or more, and no more only if it is `good`. -/
def Takes (size : α → ℕ) (good : α → Prop) (read : Reader α) : Prop :=
  ∀ cs x rest, read cs = some (x, rest) →
    size x + rest.length ≤ cs.length ∧ (size x + rest.length = cs.length → good x)

theorem length_skipWs_le (cs : List Char) : (skipWs cs).length ≤ cs.length :=
  List.length_dropWhile_le ..

theorem length_readHex {cs rest : List Char} {n : ℕ} (h : readHex cs = some (n, rest)) :
    rest.length < cs.length := by
  unfold readHex at h
  split at h
  · simp only [Option.bind_eq_bind, Option.bind_eq_some_iff, Option.pure_def, Option.some.injEq,
      Prod.mk.injEq] at h
    obtain ⟨-, -, -, -, -, -, -, -, -, rfl⟩ := h
    simp only [List.length_cons]
    omega
  · cases h

theorem length_readLowHalf {cs rest : List Char} {n : ℕ} {c : Char}
    (h : readLowHalf n cs = some (c, rest)) : rest.length < cs.length := by
  unfold readLowHalf at h
  split at h
  · obtain ⟨⟨l, r⟩, hl, h⟩ := Option.bind_eq_some_iff.mp h
    have hlen := length_readHex hl
    dsimp only at h
    split at h
    · simp only [Option.some.injEq, Prod.mk.injEq] at h
      obtain ⟨-, rfl⟩ := h
      simp only [List.length_cons]
      omega
    · cases h
  · cases h

theorem length_readUnicode {cs rest : List Char} {c : Char} (h : readUnicode cs = some (c, rest)) :
    rest.length < cs.length := by
  obtain ⟨⟨n, r⟩, hn, h⟩ := Option.bind_eq_some_iff.mp h
  have hlen := length_readHex hn
  dsimp only at h
  split at h
  · exact Nat.lt_trans (length_readLowHalf h) hlen
  · split at h
    · cases h
    · simp only [Option.some.injEq, Prod.mk.injEq] at h
      obtain ⟨-, rfl⟩ := h
      exact hlen

theorem length_readEscape {cs rest : List Char} {c : Char} (h : readEscape cs = some (c, rest)) :
    rest.length < cs.length := by
  unfold readEscape at h
  split at h
  case h_9 =>
    have := length_readUnicode h
    simp only [List.length_cons]
    omega
  case h_10 => cases h
  all_goals
    cases h
    simp

theorem takes_string (n : ℕ) :
    Takes (fun s => s.length + 1) (fun s => ∀ c ∈ s, Plain c) (readString n) := by
  induction n with
  | zero => nofun
  | succ n ih =>
    intro cs x rest h
    cases cs with
    | nil => cases h
    | cons c cs =>
      rw [readString] at h
      split at h
      · cases h
        simp [Nat.add_comm]
      · rename_i hq
        split at h
        · obtain ⟨⟨c', r⟩, he, h⟩ := Option.bind_eq_some_iff.mp h
          obtain ⟨⟨s, r'⟩, hs, h⟩ := Option.bind_eq_some_iff.mp h
          cases h
          have hlt := length_readEscape he
          have hle := (ih _ _ _ hs).1
          dsimp only at hle
          simp only [List.length_cons]
          omega
        · rename_i hb
          split at h
          · cases h
          · rename_i hlt
            obtain ⟨⟨s, r⟩, hs, h⟩ := Option.bind_eq_some_iff.mp h
            cases h
            obtain ⟨hle, hgood⟩ := ih _ _ _ hs
            dsimp only at hle hgood
            simp only [List.length_cons, List.forall_mem_cons]
            refine ⟨by omega, fun heq => ⟨⟨hq, hb, by omega⟩, hgood (by omega)⟩⟩

theorem takes_items {size : α → ℕ} {good : α → Prop} {item : Reader α} (hi : Takes size good item)
    (close : Char) (n : ℕ) :
    Takes (fun l => (l.map size).sum + l.length) (fun l => ∀ x ∈ l, good x)
      (readItems item close n) := by
  induction n with
  | zero => nofun
  | succ n ih =>
    intro cs l rest h
    rw [readItems] at h
    obtain ⟨⟨y, r⟩, hy, h⟩ := Option.bind_eq_some_iff.mp h
    obtain ⟨hle, hgood⟩ := hi _ _ _ hy
    have hws := length_skipWs_le r
    dsimp only at h
    split at h
    · cases h
    · rename_i c r' hr
      rw [hr, List.length_cons] at hws
      split at h
      · cases h
        simp only [List.map_cons, List.map_nil, List.sum_cons, List.sum_nil, List.length_singleton,
          List.forall_mem_singleton]
        exact ⟨by omega, fun heq => hgood (by omega)⟩
      · split at h
        · obtain ⟨⟨ys, r''⟩, hys, h⟩ := Option.bind_eq_some_iff.mp h
          cases h
          obtain ⟨hle', hgood'⟩ := ih _ _ _ hys
          dsimp only at hle' hgood'
          simp only [List.map_cons, List.sum_cons, List.length_cons, List.forall_mem_cons]
          exact ⟨by omega, fun heq => ⟨hgood (by omega), hgood' (by omega)⟩⟩
        · cases h

theorem takes_all {size : α → ℕ} {good : α → Prop} {item : Reader α} (hi : Takes size good item)
    (close : Char) (n : ℕ) :
    Takes (fun l => (l.map size).sum + l.length) (fun l => ∀ x ∈ l, good x)
      (readAll item close n) := by
  intro cs l rest h
  have hws := length_skipWs_le cs
  rw [readAll] at h
  split at h
  · cases h
  · rename_i c r hr
    split at h
    · cases h
      rw [hr, List.length_cons] at hws
      simp only [List.map_nil, List.sum_nil, List.length_nil, List.not_mem_nil, false_implies,
        implies_true, and_true]
      omega
    · exact takes_items hi close n _ _ _ h

/-- The least length of a value, as far as it matters here. -/
def size : Json → ℕ
  | string s => s.toList.length + 2
  | _ => 1

def PlainValue : Json → Prop
  | string s => ∀ c ∈ s.toList, Plain c
  | _ => True

def memberSize (m : String × Json) : ℕ := m.1.toList.length + 3 + m.2.size

def PlainMember (m : String × Json) : Prop := (∀ c ∈ m.1.toList, Plain c) ∧ m.2.PlainValue

theorem takes_member {value : Reader Json} (hv : Takes size PlainValue value) (n : ℕ) :
    Takes memberSize PlainMember (readMember value n) := by
  intro cs m rest h
  have hws := length_skipWs_le cs
  rw [readMember] at h
  split at h
  · rename_i r hr
    rw [hr, List.length_cons] at hws
    obtain ⟨⟨key, r₁⟩, hk, h⟩ := Option.bind_eq_some_iff.mp h
    obtain ⟨hle, hgood⟩ := takes_string n _ _ _ hk
    dsimp only at hle hgood
    have hws' := length_skipWs_le r₁
    dsimp only at h
    split at h
    · rename_i r₂ hr'
      rw [hr', List.length_cons] at hws'
      obtain ⟨⟨v, r₃⟩, hr₃, h⟩ := Option.bind_eq_some_iff.mp h
      cases h
      obtain ⟨hle', hgood'⟩ := hv _ _ _ hr₃
      simp only [memberSize, PlainMember, String.toList_ofList]
      exact ⟨by omega, fun heq => ⟨hgood (by omega), hgood' (by omega)⟩⟩
    · cases h
  · cases h

theorem length_readDigits {cs ds rest : List Char} (h : readDigits cs = some (ds, rest)) :
    rest.length < cs.length := by
  unfold readDigits at h
  split at h
  · cases h
  · rename_i hne
    cases h
    have hsplit := congrArg List.length (@List.takeWhile_append_dropWhile _ Char.isDigit cs)
    have hpos := List.length_pos_iff.mpr hne
    rw [List.length_append] at hsplit
    omega

theorem length_readUnsigned {cs ds rest : List Char} (h : readUnsigned cs = some (ds, rest)) :
    rest.length < cs.length := by
  obtain ⟨⟨int, r₁⟩, hint, h⟩ := Option.bind_eq_some_iff.mp h
  obtain ⟨⟨frac, r₂⟩, hfrac, h⟩ := Option.bind_eq_some_iff.mp h
  obtain ⟨⟨exp, r₃⟩, hexp, h⟩ := Option.bind_eq_some_iff.mp h
  cases h
  have h₁ : r₁.length < cs.length := by
    unfold readInt at hint
    split at hint
    · cases hint
      simp
    · exact length_readDigits hint
  have h₂ : r₂.length ≤ r₁.length := by
    unfold readFraction at hfrac
    split at hfrac
    · obtain ⟨⟨ds, r⟩, hds, h⟩ := Option.map_eq_some_iff.mp hfrac
      cases h
      have := length_readDigits hds
      simp only [List.length_cons]
      omega
    · cases hfrac
      exact Nat.le_refl _
  have h₃ : rest.length ≤ r₂.length := by
    unfold readExponent at hexp
    split at hexp
    · split at hexp
      · obtain ⟨⟨sign, r⟩, hsign, h⟩ := Option.bind_eq_some_iff.mp hexp
        obtain ⟨⟨ds, r'⟩, hds, h⟩ := Option.bind_eq_some_iff.mp h
        cases h
        have hlt := length_readDigits hds
        unfold readSign at hsign
        split at hsign <;> cases hsign <;> simp only [List.length_cons] at hlt ⊢ <;> omega
      · cases hexp
        exact Nat.le_refl _
    · cases hexp
      exact Nat.le_refl _
  omega

theorem length_readNumber {cs ds rest : List Char} (h : readNumber cs = some (ds, rest)) :
    rest.length < cs.length := by
  unfold readNumber at h
  split at h
  · obtain ⟨⟨ds, r⟩, hds, h⟩ := Option.map_eq_some_iff.mp h
    cases h
    have := length_readUnsigned hds
    simp only [List.length_cons]
    omega
  · exact length_readUnsigned h

theorem takes_value (n : ℕ) : Takes size PlainValue (readValue n) := by
  induction n with
  | zero => nofun
  | succ n ih =>
    intro cs v rest h
    have hws := length_skipWs_le cs
    rw [readValue] at h
    split at h
    case h_1 r hr | h_2 r hr | h_3 r hr =>
      cases h
      rw [hr] at hws
      simp only [List.length_cons] at hws
      exact ⟨by simp only [size]; omega, fun _ => trivial⟩
    case h_4 r hr =>
      rw [hr, List.length_cons] at hws
      obtain ⟨⟨s, r'⟩, hs, h⟩ := Option.map_eq_some_iff.mp h
      cases h
      obtain ⟨hle, hgood⟩ := takes_string n _ _ _ hs
      dsimp only at hle hgood
      simp only [size, PlainValue, String.toList_ofList]
      exact ⟨by omega, fun heq => hgood (by omega)⟩
    case h_5 r hr =>
      rw [hr, List.length_cons] at hws
      obtain ⟨⟨l, r'⟩, hl, h⟩ := Option.map_eq_some_iff.mp h
      cases h
      have hle := (takes_all ih _ n _ _ _ hl).1
      exact ⟨by simp only [size]; omega, fun _ => trivial⟩
    case h_6 r hr =>
      rw [hr, List.length_cons] at hws
      obtain ⟨⟨l, r'⟩, hl, h⟩ := Option.map_eq_some_iff.mp h
      cases h
      have hle := (takes_all (takes_member ih n) _ n _ _ _ hl).1
      exact ⟨by simp only [size]; omega, fun _ => trivial⟩
    case h_7 =>
      obtain ⟨⟨ds, r⟩, hds, h⟩ := Option.map_eq_some_iff.mp h
      cases h
      have := length_readNumber hds
      exact ⟨by simp only [size]; omega, fun _ => trivial⟩

/-- The length of an object's text, and when it is the least. -/
theorem Denotes.object_length {text : String} {members : List (String × Json)}
    (h : Denotes text (object members)) :
    (members.map memberSize).sum + members.length + 1 ≤ text.toList.length ∧
      ((members.map memberSize).sum + members.length + 1 = text.toList.length →
        ∀ m ∈ members, PlainMember m) := by
  obtain ⟨n, h⟩ := h
  obtain ⟨⟨v, rest⟩, hv, h⟩ := Option.bind_eq_some_iff.mp h
  dsimp only at h
  split at h
  · cases h
    cases n with
    | zero => cases hv
    | succ n =>
      have hws := length_skipWs_le text.toList
      rw [readValue] at hv
      split at hv
      case h_6 r hr =>
        rw [hr, List.length_cons] at hws
        obtain ⟨⟨l, r'⟩, hl, hv⟩ := Option.map_eq_some_iff.mp hv
        cases hv
        obtain ⟨hle, hgood⟩ := takes_all (takes_member (takes_value n) n) _ n _ _ _ hl
        dsimp only at hle hgood
        exact ⟨by omega, fun heq => hgood (by omega)⟩
      case h_1 | h_2 | h_3 => cases hv
      all_goals
        obtain ⟨⟨x, r⟩, -, hx⟩ := Option.map_eq_some_iff.mp hv
        cases hx
  · cases h

/-! Texts that are written without blanks and without escapes. -/

theorem skipWs_of_not_isWs {c : Char} (h : isWs c = false) (cs : List Char) :
    skipWs (c :: cs) = c :: cs := by
  simp [skipWs, h]

theorem readString_plain {s : List Char} (hs : ∀ c ∈ s, Plain c) {n : ℕ} (hn : s.length < n)
    (rest : List Char) : readString n (s ++ '"' :: rest) = some (s, rest) := by
  induction s generalizing n with
  | nil =>
    obtain ⟨n, rfl⟩ := Nat.exists_eq_succ_of_ne_zero (Nat.ne_zero_of_lt hn)
    simp [readString]
  | cons c s ih =>
    obtain ⟨n, rfl⟩ := Nat.exists_eq_succ_of_ne_zero (Nat.ne_zero_of_lt hn)
    obtain ⟨hc, hs⟩ := List.forall_mem_cons.mp hs
    have hrest := ih hs (n := n) (by simpa using hn)
    rw [List.cons_append, readString, if_neg hc.1, if_neg hc.2.1, if_neg (by have := hc.2.2; omega),
      hrest]
    rfl

/-- A member whose value is a string. -/
def writeMember (m : String × String) : List Char :=
  '"' :: m.1.toList ++ '"' :: ':' :: '"' :: m.2.toList ++ ['"']

def ofStrings (members : List (String × String)) : List (String × Json) :=
  members.map fun m => (m.1, string m.2)

theorem length_writeMember (m : String × String) :
    (writeMember m).length = memberSize (m.1, string m.2) := by
  simp only [writeMember, memberSize, size, List.length_append, List.length_cons, List.length_nil]
  omega

theorem readMember_plain {m : String × String} (hm : PlainMember (m.1, string m.2)) {n : ℕ}
    (hn : (writeMember m).length < n) (rest : List Char) :
    readMember (readValue n) n (writeMember m ++ rest) = some ((m.1, string m.2), rest) := by
  obtain ⟨key, value⟩ := m
  obtain ⟨n, rfl⟩ := Nat.exists_eq_succ_of_ne_zero (Nat.ne_zero_of_lt hn)
  rw [length_writeMember] at hn
  simp only [memberSize, size] at hn
  have hkey := @readString_plain key.toList hm.1 (n + 1) (by omega)
    (':' :: '"' :: value.toList ++ '"' :: rest)
  have hvalue := @readString_plain value.toList hm.2 n (by omega) rest
  have hq : ∀ cs, skipWs ('"' :: cs) = '"' :: cs := skipWs_of_not_isWs (by decide)
  have hcolon : ∀ cs, skipWs (':' :: cs) = ':' :: cs := skipWs_of_not_isWs (by decide)
  simp only [List.cons_append] at hkey
  simp only [writeMember, List.cons_append, List.append_assoc, List.nil_append, readMember, hq,
    hkey, hcolon, readValue, hvalue, Option.bind_eq_bind, Option.bind_some, Option.map_some,
    String.ofList_toList, Option.pure_def]

/-- The members after the first, each after a comma. -/
def writeMore (members : List (String × String)) : List Char :=
  members.flatMap fun m => ',' :: writeMember m

theorem readItems_plain {members : List (String × String)} (m : String × String)
    (hm : ∀ m' ∈ m :: members, PlainMember (m'.1, string m'.2)) {k n : ℕ}
    (hk : members.length < k) (hn : (writeMember m ++ writeMore members).length < n)
    (rest : List Char) :
    readItems (readMember (readValue n) n) '\x7d' k
      (writeMember m ++ writeMore members ++ '\x7d' :: rest) =
      some (ofStrings (m :: members), rest) := by
  have hcomma : ∀ cs, skipWs (',' :: cs) = ',' :: cs := skipWs_of_not_isWs (by decide)
  have hclose : ∀ cs, skipWs ('\x7d' :: cs) = '\x7d' :: cs := skipWs_of_not_isWs (by decide)
  induction members generalizing m k with
  | nil =>
    obtain ⟨k, rfl⟩ := Nat.exists_eq_succ_of_ne_zero (Nat.ne_zero_of_lt hk)
    have hread := readMember_plain (hm m (by simp)) (n := n) (by simpa [writeMore] using hn)
      ('\x7d' :: rest)
    simp [readItems, writeMore, hread, hclose, ofStrings]
  | cons m' members ih =>
    obtain ⟨k, rfl⟩ := Nat.exists_eq_succ_of_ne_zero (Nat.ne_zero_of_lt hk)
    have hlen : (writeMember m ++ writeMore (m' :: members)).length =
        (writeMember m).length + 1 + (writeMember m' ++ writeMore members).length := by
      simp only [writeMore, List.flatMap_cons, List.length_append, List.length_cons]
      omega
    have hread := readMember_plain (hm m (by simp)) (n := n) (by omega)
      (',' :: (writeMember m' ++ writeMore members ++ '\x7d' :: rest))
    have hmore := ih m' (fun x hx => hm x (List.mem_cons_of_mem _ hx)) (k := k)
      (by simpa using hk) (by omega)
    have htext : writeMember m ++ writeMore (m' :: members) ++ '\x7d' :: rest =
        writeMember m ++ ',' :: (writeMember m' ++ writeMore members ++ '\x7d' :: rest) := by
      simp [writeMore]
    rw [htext, readItems, hread, Option.bind_eq_bind, Option.bind_some]
    dsimp only
    rw [hcomma]
    dsimp only
    rw [if_neg (by decide), if_pos rfl, hmore]
    rfl

/-- An object whose members are strings. -/
def writeObject : List (String × String) → List Char
  | [] => ['\x7b', '\x7d']
  | m :: members => '\x7b' :: (writeMember m ++ writeMore members ++ ['\x7d'])

theorem length_writeMore (members : List (String × String)) :
    (writeMore members).length =
      ((ofStrings members).map memberSize).sum + (ofStrings members).length := by
  induction members with
  | nil => rfl
  | cons m members ih =>
    simp only [writeMore, ofStrings, List.flatMap_cons, List.map_cons, List.sum_cons,
      List.length_append, List.length_cons, length_writeMember] at ih ⊢
    omega

theorem length_writeObject {members : List (String × String)} (h : members ≠ []) :
    (writeObject members).length =
      ((ofStrings members).map memberSize).sum + (ofStrings members).length + 1 := by
  cases members with
  | nil => exact absurd rfl h
  | cons m members =>
    simp only [writeObject, List.length_cons, List.length_append, length_writeMore, ofStrings,
      length_writeMember, List.map_cons, List.sum_cons, List.length_nil]
    omega

theorem readValue_open (n : ℕ) (cs : List Char) : readValue (n + 1) ('\x7b' :: cs) =
    (readAll (readMember (readValue n) n) '\x7d' n cs).map fun (l, rest) => (object l, rest) := by
  rw [readValue, skipWs_of_not_isWs (by decide)]
  rfl

/-- Without characters that need an escape, the object is read back as it was written. -/
theorem denotes_writeObject {members : List (String × String)}
    (hm : ∀ m ∈ members, PlainMember (m.1, string m.2)) :
    Denotes (String.ofList (writeObject members)) (object (ofStrings members)) := by
  cases members with
  | nil => exact ⟨2, by rw [String.toList_ofList]; rfl⟩
  | cons m members =>
    have hlen := length_writeObject (List.cons_ne_nil m members)
    have hwrite : (writeObject (m :: members)).length =
        (writeMember m ++ writeMore members).length + 2 := by
      simp only [writeObject, List.length_cons, List.length_append, List.length_nil]
    generalize (writeObject (m :: members)).length = n at hlen hwrite
    have hk : members.length < n := by
      simp only [ofStrings, List.map_cons, List.length_cons, List.length_map] at hlen
      omega
    have hread := readItems_plain m hm hk (n := n) (by omega) []
    have hq : skipWs (writeMember m ++ writeMore members ++ ['\x7d']) =
        writeMember m ++ writeMore members ++ ['\x7d'] := by
      simp only [writeMember, List.cons_append]
      exact skipWs_of_not_isWs (by decide) _
    have hall : readAll (readMember (readValue n) n) '\x7d' n
        (writeMember m ++ writeMore members ++ ['\x7d']) = some (ofStrings (m :: members), []) := by
      rw [readAll, hq]
      simp only [writeMember, List.cons_append] at hread ⊢
      rw [if_neg (by decide)]
      exact hread
    refine ⟨n + 1, ?_⟩
    rw [String.toList_ofList, readText, writeObject, readValue_open, hall]
    rfl

end Json
