import Mathlib.Data.List.Induction
import GraphTable.Edge
import GraphTable.Proofs.Bytes.Number
import GraphTable.Proofs.Date.Reading
import GraphTable.Proofs.Outcome

/-!
# Lists in cells are read back

* **Row keys** follow one another, each after its length, and the reader takes one off and goes on
  with what is left until that is nothing (`decodeRowKeys_eq`). So it reads what was written, and
  nothing else (`decodeRowKeys_eq_ok_iff`): it neither skips nor fills in a byte. Bytes after those
  that were written are read on their own (`decodeRowKeys_append`), and a key that is cut short is
  refused wherever it is cut (`exists_error_of_cut`). Lengths have to fit into four bytes.
* **Sequence numbers** are digits with commas between them. No digit is a comma or a blank, so
  cutting at the commas gives the digits of each number (`decodeSequences_encodeSequences`).
-/

namespace GraphTable

namespace Text

/-- Cutting at a single character is splitting at it. -/
theorem cut_singleton (c : Char) (cs : List Char) : cut [c] cs = cs.splitOn c := by
  have hfrom : cutFrom [c] 0 cs = cs.splitOnP (· == c) := by
    induction cs with
    | nil => rfl
    | cons d cs ih =>
      rw [cutFrom, ih, List.splitOnP_cons_eq_if_modifyHead]
      by_cases h : d = c
      · subst h
        simp [List.isPrefixOf, ih]
      · have hne : c ≠ d := fun heq => h heq.symm
        obtain ⟨piece, pieces, hsplit⟩ := List.exists_cons_of_ne_nil
          (List.splitOnP_ne_nil (· == c) cs)
        simp only [List.isPrefixOf, beq_false_of_ne hne, beq_false_of_ne h, Bool.false_and,
          Bool.and_false, Bool.false_eq_true, if_false, hsplit, List.modifyHead_cons]
        rfl
  exact hfrom

theorem codes_intercalate (sep : List Char) (pieces : List (List Char)) :
    codes (sep.intercalate pieces) = (codes sep).intercalate (pieces.map codes) := by
  induction pieces with
  | nil => rfl
  | cons piece pieces ih =>
    cases pieces with
    | nil => simp
    | cons next pieces =>
      rw [List.map_cons] at ih
      rw [List.intercalate_cons_cons, codes_append, codes_append, ih, List.map_cons, List.map_cons,
        List.intercalate_cons_cons]

theorem forall_mem_intercalate {P : Char → Prop} {sep : List Char} {pieces : List (List Char)}
    (hsep : ∀ c ∈ sep, P c) (h : ∀ piece ∈ pieces, ∀ c ∈ piece, P c) :
    ∀ c ∈ sep.intercalate pieces, P c := by
  induction pieces with
  | nil => exact List.forall_mem_nil _
  | cons piece pieces ih =>
    obtain ⟨hpiece, hpieces⟩ := List.forall_mem_cons.mp h
    cases pieces with
    | nil => rwa [List.intercalate_singleton]
    | cons next pieces =>
      rw [List.intercalate_cons_cons]
      intro c hc
      rcases List.mem_append.mp hc with hc | hc
      · exact (List.mem_append.mp hc).elim (hpiece c) (hsep c)
      · exact ih hpieces c hc

theorem count?_digits (n : UInt64) : count? (digits n.toNat) = some n := by
  obtain ⟨c, cs, hcons, hc⟩ := digits_eq_cons n.toNat
  have hread := natural?_digits n.toNat
  have hsize : n.toNat < UInt64.size := n.toNat_lt
  have hplus : c ≠ '+' := by
    rintro rfl
    cases hc
  rw [hcons] at hread ⊢
  unfold count?
  split
  · rename_i heq
    exact absurd (List.cons.inj heq).1 hplus
  · dsimp only
    rw [hread, Option.bind_some, if_pos hsize, UInt64.ofNat_toNat]

end Text

namespace Edges

/-! ### Row keys -/

/-- The length of a row key has room in front of it. -/
def Fits (key : Bytes) : Prop :=
  key.length < 2 ^ 32

instance (key : Bytes) : Decidable (Fits key) := by
  unfold Fits
  infer_instance

/-- Fuel for all bytes is enough. -/
theorem decodeRowKeysFrom_of_le {fuel : Nat} {bytes : Bytes} (h : bytes.length ≤ fuel) :
    decodeRowKeysFrom fuel bytes = decodeRowKeys bytes := by
  have hany : ∀ (fuel fuel' : Nat) (bytes : Bytes), bytes.length ≤ fuel → bytes.length ≤ fuel' →
      decodeRowKeysFrom fuel bytes = decodeRowKeysFrom fuel' bytes := by
    intro fuel
    induction fuel with
    | zero =>
      intro fuel' bytes h _
      obtain rfl := List.eq_nil_of_length_eq_zero (Nat.le_zero.mp h)
      cases fuel' <;> rfl
    | succ fuel ih =>
      intro fuel' bytes h h'
      cases bytes with
      | nil => cases fuel' <;> rfl
      | cons b bytes =>
        cases fuel' with
        | zero => cases h'
        | succ fuel' =>
          simp only [decodeRowKeysFrom]
          split
          · rfl
          · split
            · rfl
            · rw [ih fuel']
              · simp only [List.length_drop, List.length_cons] at h ⊢
                omega
              · simp only [List.length_drop, List.length_cons] at h' ⊢
                omega
  exact hany fuel bytes.length bytes h (Nat.le_refl _)

/-- The reader takes the length of a key off, then the key, and goes on with the rest. -/
theorem decodeRowKeys_eq (bytes : Bytes) :
    decodeRowKeys bytes =
      if bytes = [] then .ok []
      else if bytes.length < 4 then .error (.malformedKey .edgeKeyLength)
      else
        let length := Bytes.toNat (bytes.take 4)
        let rest := bytes.drop 4
        if rest.length < length then .error (.malformedKey .edgeKey)
        else (decodeRowKeys (rest.drop length)).map (rest.take length :: ·) := by
  cases bytes with
  | nil => rfl
  | cons b bytes =>
    rw [decodeRowKeys, List.length_cons, decodeRowKeysFrom, if_neg (List.cons_ne_nil b bytes)]
    · dsimp only
      rw [decodeRowKeysFrom_of_le]
      · rfl
      · simp only [List.length_drop, List.length_cons]
        omega
    · exact List.cons_ne_nil b bytes

theorem encodeRowKeys_cons (key : Bytes) (keys : List Bytes) :
    encodeRowKeys (key :: keys) = Bytes.bigEndian 4 key.length ++ (key ++ encodeRowKeys keys) := by
  rw [encodeRowKeys, List.flatMap_cons, List.append_assoc]
  rfl

/-- A length in four bytes is read back. -/
theorem toNat_take_bigEndian {key : Bytes} (h : Fits key) (rest : Bytes) :
    Bytes.toNat ((Bytes.bigEndian 4 key.length ++ rest).take 4) = key.length := by
  rw [List.take_left' (Bytes.length_bigEndian 4 _), Bytes.toNat_bigEndian]
  exact Nat.mod_eq_of_lt h

/-- Keys are read as they were written, and what follows them is read on its own. -/
theorem decodeRowKeys_append {keys : List Bytes} (h : ∀ key ∈ keys, Fits key) (rest : Bytes) :
    decodeRowKeys (encodeRowKeys keys ++ rest) = (decodeRowKeys rest).map (keys ++ ·) := by
  induction keys with
  | nil => cases h : decodeRowKeys rest <;> exact h
  | cons key keys ih =>
    obtain ⟨hkey, hkeys⟩ := List.forall_mem_cons.mp h
    have hlength := Bytes.length_bigEndian 4 key.length
    rw [encodeRowKeys_cons, List.append_assoc, List.append_assoc, decodeRowKeys_eq, if_neg,
      if_neg]
    · dsimp only
      rw [toNat_take_bigEndian hkey, List.drop_left' hlength, if_neg, List.take_left,
        List.drop_left, ih hkeys]
      · cases decodeRowKeys rest <;> rfl
      · simp
    · simp [hlength]
    · intro hnil
      rw [List.append_eq_nil_iff.mp hnil |>.1] at hlength
      cases hlength

/-- What is read is what was written. -/
theorem encodeRowKeys_of_decode {bytes : Bytes} {keys : List Bytes}
    (h : decodeRowKeys bytes = .ok keys) :
    encodeRowKeys keys = bytes ∧ ∀ key ∈ keys, Fits key := by
  induction hn : bytes.length using Nat.strongRecOn generalizing bytes keys with
  | ind n ih =>
    rw [decodeRowKeys_eq] at h
    split at h
    · rename_i hnil
      obtain rfl := Except.ok.inj h
      exact ⟨hnil.symm, List.forall_mem_nil _⟩
    · split at h
      · cases h
      · rename_i hlong
        dsimp only at h
        split at h
        · cases h
        · rename_i hrest
          rcases hmore : decodeRowKeys ((bytes.drop 4).drop (Bytes.toNat (bytes.take 4)))
            with e | more
          · rw [hmore] at h
            cases h
          · rw [hmore] at h
            obtain rfl := Except.ok.inj h
            have hwidth : (bytes.take 4).length = 4 := by
              rw [List.length_take]
              omega
            have hkey : ((bytes.drop 4).take (Bytes.toNat (bytes.take 4))).length =
                Bytes.toNat (bytes.take 4) := by
              rw [List.length_take]
              omega
            have hlength := Bytes.bigEndian_toNat (bytes.take 4)
            have hbound := Bytes.toNat_lt (bytes.take 4)
            rw [hwidth] at hlength hbound
            obtain ⟨hencode, hfits⟩ := ih _ (by simp only [List.length_drop]; omega) hmore rfl
            refine ⟨?_, List.forall_mem_cons.mpr ⟨?_, hfits⟩⟩
            · rw [encodeRowKeys_cons, hencode, hkey, hlength, List.take_append_drop,
                List.take_append_drop]
            · rw [Fits, hkey]
              exact hbound

theorem decodeRowKeys_eq_ok_iff {bytes : Bytes} {keys : List Bytes} :
    decodeRowKeys bytes = .ok keys ↔ encodeRowKeys keys = bytes ∧ ∀ key ∈ keys, Fits key := by
  refine ⟨encodeRowKeys_of_decode, ?_⟩
  rintro ⟨rfl, hkeys⟩
  have hread := decodeRowKeys_append hkeys []
  rw [List.append_nil] at hread
  rw [hread]
  exact congrArg Except.ok (List.append_nil keys)

/-- A key that is cut short is refused. -/
theorem exists_error_of_cut {key : Bytes} (h : Fits key) {n : Nat} (hpos : 0 < n)
    (hn : n < 4 + key.length) :
    ∃ e, decodeRowKeys ((encodeRowKeys [key]).take n) = .error e := by
  have hlength := Bytes.length_bigEndian 4 key.length
  have hwritten : encodeRowKeys [key] = Bytes.bigEndian 4 key.length ++ key := by
    rw [encodeRowKeys_cons]
    exact congrArg _ (List.append_nil key)
  have hcut : ((Bytes.bigEndian 4 key.length ++ key).take n).length = n := by
    rw [List.length_take, List.length_append]
    omega
  rw [hwritten, decodeRowKeys_eq, if_neg, hcut]
  · split
    · exact ⟨_, rfl⟩
    · -- the length is whole, and says more than is there
      have hfour : ((Bytes.bigEndian 4 key.length ++ key).take n).take 4 =
          (Bytes.bigEndian 4 key.length ++ key).take 4 := by
        rw [List.take_take, Nat.min_eq_left (by omega)]
      dsimp only
      rw [hfour, toNat_take_bigEndian h, List.length_drop, hcut, if_pos (by omega)]
      exact ⟨_, rfl⟩
  · intro hnil
    rw [hnil, List.length_nil] at hcut
    omega

/-! ### Sequence numbers -/

/-- The digits of each number. -/
def numerals (ns : List UInt64) : List (List Char) :=
  ns.map fun n => Text.digits n.toNat

theorem isDigit_of_mem_numerals {ns : List UInt64} {ds : List Char} (hds : ds ∈ numerals ns)
    {c : Char} (hc : c ∈ ds) : c.isDigit = true := by
  obtain ⟨n, -, rfl⟩ := List.mem_map.mp hds
  exact Text.isDigit_of_mem_digits hc

theorem cellText_encodeSequences (ns : List UInt64) :
    cellText (encodeSequences ns) = .ok (String.ofList ([','].intercalate (numerals ns))) := by
  have hcodes : encodeSequences ns = Text.codes ([','].intercalate (numerals ns)) := by
    rw [Text.codes_intercalate, numerals, List.map_map]
    rfl
  rw [hcodes, ← Text.utf8_ofList, cellText, Text.ofUtf8?_utf8]
  refine Text.forall_mem_intercalate (List.forall_mem_singleton.mpr ?_) fun ds hds c hc => ?_
  · decide
  · exact Date.toNat_lt_of_isDigit (isDigit_of_mem_numerals hds hc)

theorem cut_numerals {ns : List UInt64} (h : ns ≠ []) :
    Text.cut [','] ([','].intercalate (numerals ns)) = numerals ns := by
  rw [Text.cut_singleton]
  refine List.splitOn_intercalate ',' (fun ds hds hc => ?_) fun hnil =>
    h (List.map_eq_nil_iff.mp hnil)
  exact Bool.noConfusion (isDigit_of_mem_numerals hds hc)

theorem readSequence_digits (n : UInt64) : readSequence (Text.digits n.toNat) = .ok n := by
  have htrim : Text.trimChars (Text.digits n.toNat) = Text.digits n.toNat :=
    Text.trimChars_eq_self fun c hc => Text.isBlank_of_isDigit (Text.isDigit_of_mem_digits hc)
  rw [readSequence, htrim, Text.count?_digits]

theorem mapM_readSequence (ns : List UInt64) : (numerals ns).mapM readSequence = .ok ns := by
  induction ns with
  | nil => rfl
  | cons n ns ih =>
    exact Outcome.mapM_cons_eq_ok.mpr ⟨n, ns, readSequence_digits n, ih, rfl⟩

/-- A text that is not empty is cut at its commas. -/
theorem decodeSequences_of_cellText {bytes : Bytes} {s : String} (h : cellText bytes = .ok s)
    (hs : s.toList ≠ []) :
    decodeSequences bytes = (Text.cut [','] s.toList).mapM readSequence := by
  rw [decodeSequences, h]
  dsimp only [bind, Except.bind]
  split
  · exact absurd ‹s.toList = []› hs
  · rfl

theorem decodeSequences_encodeSequences (ns : List UInt64) :
    decodeSequences (encodeSequences ns) = .ok ns := by
  cases ns with
  | nil => rfl
  | cons n ns =>
    have hcut := cut_numerals (List.cons_ne_nil n ns)
    rw [decodeSequences_of_cellText (cellText_encodeSequences _), String.toList_ofList, hcut,
      mapM_readSequence]
    -- a number has a digit at least
    intro hnil
    rw [String.toList_ofList] at hnil
    rw [hnil] at hcut
    exact absurd (List.cons.inj hcut).1.symm Nat.toDigits_ne_nil

/-! ### Both lists -/

/--
Keys whose lengths fit into four bytes are read as they were written, and bytes that are read at all
are what is written for the keys that were read, and are refused if that is so for no keys. More
bytes after them are read on their own, and refused where a key is cut short. Sequence numbers are
read as they were written.
-/
theorem lists_read_back :
    (∀ bytes keys, decodeRowKeys bytes = .ok keys ↔
      encodeRowKeys keys = bytes ∧ ∀ key ∈ keys, Fits key) ∧
    (∀ bytes, (∃ e, decodeRowKeys bytes = .error e) ↔
      ∀ keys, (∀ key ∈ keys, Fits key) → encodeRowKeys keys ≠ bytes) ∧
    (∀ keys rest, (∀ key ∈ keys, Fits key) →
      decodeRowKeys (encodeRowKeys keys ++ rest) = (decodeRowKeys rest).map (keys ++ ·)) ∧
    (∀ keys key n, (∀ key ∈ keys, Fits key) → Fits key → 0 < n → n < 4 + key.length →
      ∃ e, decodeRowKeys (encodeRowKeys keys ++ (encodeRowKeys [key]).take n) = .error e) ∧
    ∀ ns, decodeSequences (encodeSequences ns) = .ok ns := by
  refine ⟨fun _ _ => decodeRowKeys_eq_ok_iff, fun bytes => ?_,
    fun _ rest h => decodeRowKeys_append h rest, fun keys key n hkeys hkey hpos hn => ?_,
    decodeSequences_encodeSequences⟩
  · constructor
    · rintro ⟨e, he⟩ keys hkeys hwritten
      rw [decodeRowKeys_eq_ok_iff.mpr ⟨hwritten, hkeys⟩] at he
      cases he
    · intro hnone
      rcases hread : decodeRowKeys bytes with e | keys
      · exact ⟨e, rfl⟩
      · obtain ⟨hwritten, hkeys⟩ := decodeRowKeys_eq_ok_iff.mp hread
        exact absurd hwritten (hnone keys hkeys)
  · obtain ⟨e, he⟩ := exists_error_of_cut hkey hpos hn
    exact ⟨e, by rw [decodeRowKeys_append hkeys, he]; rfl⟩

/-- An empty key between two others is read back; cut after its length, the last key is refused. -/
theorem lists_read_back_emptyKey :
    let keys : List Bytes := [[98, 111, 98], [], [0]]
    decodeRowKeys (encodeRowKeys keys) = .ok keys ∧
      ∃ e, decodeRowKeys (encodeRowKeys [[98, 111, 98], []] ++ (encodeRowKeys [[0]]).take 4) =
        .error e := by
  intro keys
  obtain ⟨hread, -, -, hcut, -⟩ := lists_read_back
  refine ⟨(hread _ keys).mpr ⟨rfl, ?_⟩, hcut _ [0] 4 ?_ ?_ ?_ ?_⟩ <;> decide

end Edges

end GraphTable
