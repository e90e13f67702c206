import Mathlib.Data.List.Basic
import GraphTable.Row
import GraphTable.Proofs.Date.Order

/-!
# Names of metadata columns are apart

A qualifier for the edges of a property tells the type, the sequence number, the property and the
code that it was built from, if the names do not contain the delimiter (`qualifiers_apart`). The
other two parts may well contain it, since a delimiter may be a digit or a letter of the codes. So
the parts are taken off in an order in which no delimiter is mistaken for another:

* the code, which has five bytes whatever it is (`length_code`);
* the name of the property, from the last delimiter that is left on;
* the name of the type, up to the first one;
* what remains is nothing or the digits of the sequence number.

The qualifiers for a graph as a whole end in two underscores, and no code does.
-/

namespace GraphTable.Column

/-- The name does not contain the delimiter. -/
def Free (delimiter : UInt8) (name : String) : Prop :=
  delimiter ∉ Text.utf8 name

instance (delimiter : UInt8) (name : String) : Decidable (Free delimiter name) := by
  unfold Free
  infer_instance

/-! ### Cutting at a delimiter -/

/-- What stands before the first delimiter, and what stands after it. -/
theorem append_delimiter_inj {d : UInt8} {front front' rest rest' : Bytes} (h : d ∉ front)
    (h' : d ∉ front') (heq : front ++ d :: rest = front' ++ d :: rest') :
    front = front' ∧ rest = rest' := by
  have hindex := congrArg (List.idxOf d) heq
  rw [List.idxOf_append_of_notMem h, List.idxOf_append_of_notMem h', List.idxOf_cons_self,
    List.idxOf_cons_self] at hindex
  obtain ⟨hfront, hrest⟩ := List.append_inj heq hindex
  exact ⟨hfront, (List.cons.inj hrest).2⟩

/-- What stands before the last delimiter, and what stands after it. -/
theorem append_delimiter_inj_last {d : UInt8} {front front' rest rest' : Bytes} (h : d ∉ rest)
    (h' : d ∉ rest') (heq : front ++ d :: rest = front' ++ d :: rest') :
    front = front' ∧ rest = rest' := by
  have hreverse := congrArg List.reverse heq
  simp only [List.reverse_append, List.reverse_cons, List.append_assoc, List.singleton_append]
    at hreverse
  obtain ⟨hrest, hfront⟩ := append_delimiter_inj (mt List.mem_reverse.mp h)
    (mt List.mem_reverse.mp h') hreverse
  exact ⟨List.reverse_injective hfront, List.reverse_injective hrest⟩

/-! ### The parts of a qualifier -/

theorem decimal_injective {m n : Nat} (h : decimal m = decimal n) : m = n := by
  have hdigits : Text.digits m = Text.digits n :=
    Text.codes_injective
      (fun c hc => Date.toNat_lt_of_isDigit (Text.isDigit_of_mem_digits hc))
      (fun c hc => Date.toNat_lt_of_isDigit (Text.isDigit_of_mem_digits hc)) h
  rw [← Text.ofDigitChars_digits m, hdigits, Text.ofDigitChars_digits]

theorem length_code (c : EdgeColumn) : (Text.utf8 c.code).length = 5 := by
  cases c <;> rfl

theorem code_injective {c c' : EdgeColumn} (h : Text.utf8 c.code = Text.utf8 c'.code) : c = c' := by
  have hcode := Text.utf8_injective h
  cases c <;> cases c' <;> simp [EdgeColumn.code] at hcode ⊢

/-- A qualifier for a graph as a whole does not end like one for edges. -/
theorem drop_graphQualifier_ne (g : GraphColumn) (c : EdgeColumn) :
    (graphQualifier g).drop 3 ≠ Text.utf8 c.code := by
  cases g <;> cases c <;> decide

/-- The part of a qualifier that tells the object: the name of its type, and its sequence number. -/
def object (delimiter : UInt8) (typeName : String) : Option UInt64 → Bytes
  | none => Text.utf8 typeName
  | some n => Text.utf8 typeName ++ delimiter :: decimal n.toNat

theorem edgeQualifier_eq (delimiter : UInt8) (typeName : String) (sequence : Option UInt64)
    (property : String) (c : EdgeColumn) :
    edgeQualifier delimiter typeName sequence property c =
      (object delimiter typeName sequence ++ delimiter :: Text.utf8 property) ++
        delimiter :: Text.utf8 c.code := by
  cases sequence <;> simp [edgeQualifier, object]

theorem object_injective {delimiter : UInt8} {t t' : String} {s s' : Option UInt64}
    (ht : Free delimiter t) (ht' : Free delimiter t')
    (h : object delimiter t s = object delimiter t' s') : t = t' ∧ s = s' := by
  rcases s with _ | n <;> rcases s' with _ | n'
  · exact ⟨Text.utf8_injective h, rfl⟩
  · refine absurd ?_ ht
    change delimiter ∈ object delimiter t none
    rw [h]
    exact List.mem_append_right _ List.mem_cons_self
  · refine absurd ?_ ht'
    change delimiter ∈ object delimiter t' none
    rw [← h]
    exact List.mem_append_right _ List.mem_cons_self
  · obtain ⟨hname, hnumber⟩ := append_delimiter_inj ht ht' h
    have hn : n = n' := UInt64.toNat_inj.mp (decimal_injective hnumber)
    exact ⟨Text.utf8_injective hname, congrArg some hn⟩

/-! ### Whole qualifiers -/

theorem edgeQualifier_injective {delimiter : UInt8} {t t' p p' : String} {s s' : Option UInt64}
    {c c' : EdgeColumn} (ht : Free delimiter t) (ht' : Free delimiter t') (hp : Free delimiter p)
    (hp' : Free delimiter p')
    (h : edgeQualifier delimiter t s p c = edgeQualifier delimiter t' s' p' c') :
    t = t' ∧ s = s' ∧ p = p' ∧ c = c' := by
  rw [edgeQualifier_eq, edgeQualifier_eq] at h
  have hlength :
      (delimiter :: Text.utf8 c.code).length = (delimiter :: Text.utf8 c'.code).length := by
    rw [List.length_cons, List.length_cons, length_code, length_code]
  obtain ⟨hfront, hcode⟩ := List.append_inj' h hlength
  obtain ⟨hobject, hproperty⟩ := append_delimiter_inj_last hp hp' hfront
  obtain ⟨htype, hsequence⟩ := object_injective ht ht' hobject
  exact ⟨htype, hsequence, Text.utf8_injective hproperty, code_injective (List.cons.inj hcode).2⟩

theorem edgeQualifier_ne_graphQualifier (delimiter : UInt8) (t : String) (s : Option UInt64)
    (p : String) (c : EdgeColumn) (g : GraphColumn) :
    edgeQualifier delimiter t s p c ≠ graphQualifier g := by
  intro h
  have hcut : (object delimiter t s ++ delimiter :: Text.utf8 p ++ [delimiter]) ++
      Text.utf8 c.code = (graphQualifier g).take 3 ++ (graphQualifier g).drop 3 := by
    rw [List.take_append_drop, ← h, edgeQualifier_eq]
    simp
  have hlength : (Text.utf8 c.code).length = ((graphQualifier g).drop 3).length := by
    rw [length_code]
    cases g <;> rfl
  exact drop_graphQualifier_ne g c (List.append_inj' hcut hlength).2.symm

/--
Qualifiers for edges are the same only if they were built from the same type, sequence number,
property and code, provided that the names do not contain the delimiter. Whatever the names are, no
qualifier for edges is one for a graph as a whole.
-/
theorem qualifiers_apart (delimiter : UInt8) :
    (∀ t t' s s' p p' c c', Free delimiter t → Free delimiter t' → Free delimiter p →
      Free delimiter p' →
        (edgeQualifier delimiter t s p c = edgeQualifier delimiter t' s' p' c' ↔
          t = t' ∧ s = s' ∧ p = p' ∧ c = c')) ∧
      ∀ t s p c g, edgeQualifier delimiter t s p c ≠ graphQualifier g := by
  refine ⟨fun t t' s s' p p' c c' ht ht' hp hp' => ⟨?_, ?_⟩,
    edgeQualifier_ne_graphQualifier delimiter⟩
  · exact edgeQualifier_injective ht ht' hp hp'
  · rintro ⟨rfl, rfl, rfl, rfl⟩
    rfl

/-- The digit 1 as delimiter, between empty names and numbers that are made of it. -/
theorem qualifiers_apart_ones :
    Free 49 "" ∧
      edgeQualifier 49 "" (some 11) "" .count = [49, 49, 49, 49, 49, 95, 67, 78, 84, 95] ∧
      edgeQualifier 49 "" (some 1) "" .count ≠ [49, 49, 49, 49, 49, 95, 67, 78, 84, 95] ∧
      graphQualifier .tombstone ≠ [49, 49, 49, 49, 49, 95, 67, 78, 84, 95] := by
  have hfree : Free 49 "" := by decide
  have heleven : edgeQualifier 49 "" (some 11) "" .count =
      [49, 49, 49, 49, 49, 95, 67, 78, 84, 95] := by decide +kernel
  obtain ⟨hiff, hgraph⟩ := qualifiers_apart 49
  refine ⟨hfree, heleven, ?_, ?_⟩
  · rw [← heleven, Ne, hiff "" "" (some 1) (some 11) "" "" .count .count hfree hfree hfree hfree]
    decide
  · rw [← heleven]
    exact (hgraph "" (some 11) "" .count .tombstone).symm

end GraphTable.Column
