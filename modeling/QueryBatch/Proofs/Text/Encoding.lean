import QueryBatch.Text.Offset

/-!
# The bytes of a text

The bytes of the UTF-8 encoding, each looked at as the character of the same number. A character of
ASCII is its own only byte, and every byte of another character has a number past those of ASCII.
Main statements:

* `encodeChar_of_narrow`, `le_of_mem_encodeChar`: the bytes of a character of ASCII, and of another
  one;
* `isPrefixOf_mark`: only the byte order mark starts with its three bytes;
* `length_encode`: how many bytes a text has;
* `takeWhile_encode`, `isPrefixOf_encode`: what is looked for among the characters of ASCII is found
  at the same place in the text and in its bytes;
* `getElem?_toByteArray`, `utf8ByteSize_eq`: the bytes of a string, and their number.
-/

namespace QueryBatch.Text

/-- The bytes of a character. -/
def encodeChar (c : Char) : List Char := (String.utf8EncodeChar c).map Char.ofUInt8

/-- The bytes of a text. -/
def encode (cs : List Char) : List Char := cs.flatMap encodeChar

/-- The characters of ASCII. -/
def isNarrow (c : Char) : Bool := c.toNat < 128

/-! ## Characters -/

theorem toNat_ofUInt8 (n : Nat) : (Char.ofUInt8 (.ofNat n)).toNat = n % 256 := by
  show (UInt8.toUInt32 (.ofNat n)).toNat = n % 256
  rw [UInt8.toNat_toUInt32, UInt8.toNat_ofNat']

theorem ofUInt8_eq_iff {n : Nat} {c : Char} : Char.ofUInt8 (.ofNat n) = c ↔ n % 256 = c.toNat := by
  rw [← Char.toNat_inj, toNat_ofUInt8]

theorem encodeChar_of_narrow {c : Char} (h : isNarrow c = true) : encodeChar c = [c] := by
  have hlt : c.val.toNat < 128 := of_decide_eq_true h
  have hle : c.val.toNat ≤ 127 := Nat.le_of_lt_succ hlt
  have hbyte : Char.ofUInt8 (.ofNat c.val.toNat) = c :=
    ofUInt8_eq_iff.2 (Nat.mod_eq_of_lt (by omega))
  rw [encodeChar, String.utf8EncodeChar, if_pos hle, List.map_singleton, hbyte]

/-- How the bytes of a character are made from its number, if it is none of ASCII. -/
theorem encodeChar_cases {c : Char} (h : isNarrow c = false) :
    (c.toNat < 0x800 ∧ encodeChar c =
      [c.toNat / 64 % 32 + 192, c.toNat % 64 + 128].map (Char.ofUInt8 ∘ UInt8.ofNat)) ∨
    (0x800 ≤ c.toNat ∧ c.toNat < 0x10000 ∧ encodeChar c =
      [c.toNat / 4096 % 16 + 224, c.toNat / 64 % 64 + 128, c.toNat % 64 + 128].map
        (Char.ofUInt8 ∘ UInt8.ofNat)) ∨
    encodeChar c = [c.toNat / 262144 % 8 + 240, c.toNat / 4096 % 64 + 128,
      c.toNat / 64 % 64 + 128, c.toNat % 64 + 128].map (Char.ofUInt8 ∘ UInt8.ofNat) := by
  have hge : 128 ≤ c.toNat := Nat.le_of_not_lt (of_decide_eq_false h)
  have hval : ¬ c.val.toNat ≤ 127 := Nat.not_le.2 hge
  rw [encodeChar, String.utf8EncodeChar, if_neg hval]
  show _ ∨ _
  split
  · rename_i htwo
    exact .inl ⟨Nat.lt_succ_of_le htwo, rfl⟩
  · rename_i htwo
    split
    · rename_i hthree
      exact .inr (.inl ⟨Nat.lt_of_not_le htwo, Nat.lt_succ_of_le hthree, rfl⟩)
    · exact .inr (.inr rfl)

theorem le_of_mem_encodeChar {c b : Char} (h : isNarrow c = false) (hb : b ∈ encodeChar c) :
    isNarrow b = false := by
  have hbyte : ∃ n, b = Char.ofUInt8 (.ofNat n) ∧ 128 ≤ n % 256 := by
    rcases encodeChar_cases h with ⟨-, he⟩ | ⟨-, -, he⟩ | he
    all_goals
      rw [he] at hb
      obtain ⟨n, hn, rfl⟩ := List.mem_map.1 hb
      refine ⟨n, rfl, ?_⟩
      simp only [List.mem_cons, List.not_mem_nil, or_false] at hn
      omega
  obtain ⟨n, rfl, hn⟩ := hbyte
  rw [isNarrow, toNat_ofUInt8]
  exact decide_eq_false (by omega)

/-- A character of ASCII is among the bytes of no other character. -/
theorem not_mem_encodeChar {c d : Char} (hd : isNarrow d = true) (hne : c ≠ d) :
    d ∉ encodeChar c := by
  intro hmem
  cases hc : isNarrow c with
  | true =>
    rw [encodeChar_of_narrow hc, List.mem_singleton] at hmem
    exact hne hmem.symm
  | false =>
    rw [le_of_mem_encodeChar hc hmem] at hd
    cases hd

theorem length_encodeChar (c : Char) : (encodeChar c).length = c.utf8Size := by
  rw [encodeChar, List.length_map, String.length_utf8EncodeChar]

theorem exists_encodeChar (c : Char) : ∃ b bs, encodeChar c = b :: bs := by
  have hlen := length_encodeChar c
  have hpos := Char.utf8Size_pos c
  cases h : encodeChar c with
  | nil => rw [h, List.length_nil] at hlen; omega
  | cons b bs => exact ⟨b, bs, rfl⟩

/-- Only the byte order mark starts with its bytes. -/
theorem eq_of_encodeChar_append {c : Char} {cs ds : List Char}
    (h : encodeChar c ++ cs = ['\xEF', '\xBB', '\xBF'] ++ ds) : c = '\uFEFF' := by
  have hmark : '\uFEFF'.toNat = 0xFEFF := rfl
  have hfirst : '\xEF'.toNat = 0xEF := rfl
  have hsecond : '\xBB'.toNat = 0xBB := rfl
  have hthird : '\xBF'.toNat = 0xBF := rfl
  cases hc : isNarrow c with
  | true =>
    rw [encodeChar_of_narrow hc] at h
    obtain rfl : c = '\xEF' := (List.cons.inj h).1
    cases hc
  | false =>
    rcases encodeChar_cases hc with ⟨hlt, he⟩ | ⟨-, hlt, he⟩ | he
    all_goals
      rw [he] at h
      simp only [List.map_cons, List.map_nil, List.cons_append, List.nil_append, List.cons.injEq,
        Function.comp_apply, ofUInt8_eq_iff, hfirst, hsecond, hthird] at h
    · omega
    · rw [← Char.toNat_inj, hmark]
      omega
    · omega

/-! ## Texts -/

@[simp] theorem encode_nil : encode [] = [] := rfl

@[simp] theorem encode_cons (c : Char) (cs : List Char) :
    encode (c :: cs) = encodeChar c ++ encode cs := List.flatMap_cons

theorem encode_append (cs ds : List Char) : encode (cs ++ ds) = encode cs ++ encode ds :=
  List.flatMap_append

theorem encode_cons_of_narrow {c : Char} (h : isNarrow c = true) (cs : List Char) :
    encode (c :: cs) = c :: encode cs := by
  rw [encode_cons, encodeChar_of_narrow h, List.singleton_append]

theorem length_encode (cs : List Char) : (encode cs).length = utf8Length cs := by
  induction cs with
  | nil => rfl
  | cons c cs ih => rw [encode_cons, List.length_append, length_encodeChar, ih, utf8Length_cons]

theorem utf8Length_of_narrow {cs : List Char} (h : ∀ c ∈ cs, isNarrow c = true) :
    utf8Length cs = cs.length := by
  induction cs with
  | nil => rfl
  | cons c cs ih =>
    obtain ⟨hc, hcs⟩ := List.forall_mem_cons.1 h
    have hone : c.utf8Size = 1 := by
      rw [← length_encodeChar, encodeChar_of_narrow hc, List.length_singleton]
    rw [utf8Length_cons, ih hcs, hone, List.length_cons, Nat.add_comm]

/-- A byte of a character that is none of ASCII fails each test that only passes ASCII. -/
theorem not_of_mem_encodeChar {p : Char → Bool} (hp : ∀ c, p c = true → isNarrow c = true)
    {c b : Char} (hc : isNarrow c = false) (hb : b ∈ encodeChar c) :
    p c = false ∧ p b = false := by
  have hfails : ∀ d, isNarrow d = false → p d = false := by
    intro d hd
    rw [Bool.eq_false_iff]
    intro hpd
    rw [hp d hpd] at hd
    cases hd
  exact ⟨hfails c hc, hfails b (le_of_mem_encodeChar hc hb)⟩

theorem takeWhile_encode {p : Char → Bool} (hp : ∀ c, p c = true → isNarrow c = true)
    (cs : List Char) : (encode cs).takeWhile p = cs.takeWhile p := by
  induction cs with
  | nil => rfl
  | cons c cs ih =>
    cases hc : isNarrow c with
    | true =>
      rw [encode_cons_of_narrow hc, List.takeWhile_cons, List.takeWhile_cons, ih]
    | false =>
      obtain ⟨b, bs, hbytes⟩ := exists_encodeChar c
      have hfails := not_of_mem_encodeChar hp hc (hbytes ▸ List.mem_cons_self)
      rw [encode_cons, hbytes, List.cons_append, List.takeWhile_cons, List.takeWhile_cons, hfails.1,
        hfails.2]
      rfl

theorem any_head?_encode {p : Char → Bool} (hp : ∀ c, p c = true → isNarrow c = true)
    (cs : List Char) : (encode cs).head?.any p = cs.head?.any p := by
  cases cs with
  | nil => rfl
  | cons c cs =>
    cases hc : isNarrow c with
    | true => rw [encode_cons_of_narrow hc]; rfl
    | false =>
      obtain ⟨b, bs, hbytes⟩ := exists_encodeChar c
      have hfails := not_of_mem_encodeChar hp hc (hbytes ▸ List.mem_cons_self)
      rw [encode_cons, hbytes]
      exact hfails.2.trans hfails.1.symm

theorem isPrefixOf_encode {pattern : List Char} (h : pattern.all isNarrow = true)
    (cs : List Char) : pattern.isPrefixOf (encode cs) = pattern.isPrefixOf cs := by
  induction pattern generalizing cs with
  | nil => simp
  | cons a as ih =>
    obtain ⟨ha, has⟩ : isNarrow a = true ∧ as.all isNarrow = true := by
      rwa [List.all_cons, Bool.and_eq_true] at h
    cases cs with
    | nil => rfl
    | cons c cs =>
      cases hc : isNarrow c with
      | true =>
        rw [encode_cons_of_narrow hc, List.isPrefixOf_cons_cons, List.isPrefixOf_cons_cons, ih has]
      | false =>
        obtain ⟨b, bs, hbytes⟩ := exists_encodeChar c
        have hother : ∀ d, (a == d) = true → isNarrow d = true := fun d hd => eq_of_beq hd ▸ ha
        have hfails := not_of_mem_encodeChar hother hc (hbytes ▸ List.mem_cons_self)
        rw [encode_cons, hbytes, List.cons_append, List.isPrefixOf_cons_cons,
          List.isPrefixOf_cons_cons, hfails.1, hfails.2, Bool.false_and, Bool.false_and]

/-- A text has the bytes of the byte order mark in front exactly if it starts with that mark. -/
theorem isPrefixOf_mark (c : Char) (cs : List Char) :
    List.isPrefixOf ['\xEF', '\xBB', '\xBF'] (encode (c :: cs)) = (c == '\uFEFF') := by
  rw [Bool.eq_iff_iff, List.isPrefixOf_iff_prefix, beq_iff_eq, encode_cons]
  constructor
  · rintro ⟨more, hmore⟩
    exact eq_of_encodeChar_append hmore.symm
  · rintro rfl
    have hmark : encodeChar '\uFEFF' = ['\xEF', '\xBB', '\xBF'] := by decide
    exact ⟨encode cs, by rw [hmark]⟩

/-- The bytes of a string. -/
theorem getElem?_toByteArray (text : String) (n : Nat) :
    text.toByteArray[n]?.map Char.ofUInt8 = (encode text.toList)[n]? := by
  have hbytes : text.toByteArray = (text.toList.flatMap String.utf8EncodeChar).toByteArray := by
    have h := String.toByteArray_ofList (l := text.toList)
    rwa [String.ofList_toList] at h
  have hencode : encode text.toList =
      (text.toList.flatMap String.utf8EncodeChar).map Char.ofUInt8 := by
    rw [List.map_flatMap]
    rfl
  rw [hbytes, hencode, List.getElem?_map]
  simp [getElem?_def]

theorem utf8ByteSize_ofList (cs : List Char) : (String.ofList cs).utf8ByteSize = utf8Length cs := by
  induction cs with
  | nil => rfl
  | cons c cs ih =>
    rw [← List.singleton_append, String.ofList_append, String.utf8ByteSize_append, ih,
      ← String.singleton_eq_ofList, String.utf8ByteSize_singleton]
    rfl

theorem utf8ByteSize_eq (text : String) : text.utf8ByteSize = utf8Length text.toList := by
  rw [← utf8ByteSize_ofList, String.ofList_toList]

end QueryBatch.Text
