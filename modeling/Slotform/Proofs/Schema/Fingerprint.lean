import Slotform.Proofs.Schema.Rendered
import Slotform.Schema.Fingerprint

/-!
# What fingerprints tell apart

The bytes that a fingerprint digests can be taken apart again: every text and every count says how
long it is. So one fingerprint for two schemas means that they are written alike
(`Schema.rendered`), unless the digest collides on two of the byte strings that went into it. A
schema that comes out of a reader is told by the way it is written, and so by its fingerprint
(`Schema.Readable.eq_of_fingerprint_eq`).
-/

namespace Slotform

namespace Sha256

/-- Two of the messages differ and have one digest. -/
def Collision (messages : List (List UInt8)) : Prop :=
  ∃ x ∈ messages, ∃ y ∈ messages, x ≠ y ∧ digest x = digest y

theorem eq_of_digest_eq {messages : List (List UInt8)} (free : ¬ Collision messages)
    {x y : List UInt8} (hx : x ∈ messages) (hy : y ∈ messages) (same : digest x = digest y) :
    x = y := by
  by_contra different
  exact free ⟨x, hx, y, hy, different, same⟩

end Sha256

namespace Fingerprint

/-! ## Bytes and what follows them -/

section Bytes

variable {rest rest' : List UInt8}

theorem toList_loop_eq (bytes : ByteArray) (i : Nat) (taken : List UInt8) :
    ByteArray.toList.loop bytes i taken = taken.reverse ++ bytes.data.toList.drop i := by
  rw [ByteArray.toList.loop]
  split
  next inside =>
    have within : i < bytes.data.toList.length := inside
    rw [toList_loop_eq bytes (i + 1), List.drop_eq_getElem_cons within]
    simp [ByteArray.get!, inside]
  next outside =>
    have beyond : bytes.data.toList.length ≤ i := Nat.not_lt.1 outside
    rw [List.drop_of_length_le beyond, List.append_nil]
termination_by bytes.size - i

theorem toList_eq (bytes : ByteArray) : bytes.toList = bytes.data.toList := by
  rw [ByteArray.toList, toList_loop_eq]
  rfl

theorem length_utf8 (s : String) : s.toUTF8.toList.length = s.utf8ByteSize := by
  rw [toList_eq]
  rfl

theorem utf8_inj {s t : String} (h : s.toUTF8.toList = t.toUTF8.toList) : s = t := by
  rw [toList_eq, toList_eq] at h
  exact String.toByteArray_inj.1 (ByteArray.ext (Array.toList_inj.1 h))

/-- A count that four bytes can hold is read back from them. -/
theorem countBytes_inj {m n : Nat} (hm : m < UInt32.size) (hn : n < UInt32.size)
    (h : countBytes m ++ rest = countBytes n ++ rest') : m = n ∧ rest = rest' := by
  obtain ⟨same, follows⟩ := List.append_inj h rfl
  refine ⟨?_, follows⟩
  simp only [countBytes, List.cons.injEq, and_true] at same
  obtain ⟨b0, b1, b2, b3⟩ := same
  have e0 := congrArg UInt8.toNat b0
  have e1 := congrArg UInt8.toNat b1
  have e2 := congrArg UInt8.toNat b2
  have e3 := congrArg UInt8.toNat b3
  simp only [UInt8.toNat_ofNat', Nat.shiftRight_eq_div_pow] at e0 e1 e2 e3
  have size : UInt32.size = 2 ^ 32 := rfl
  omega

theorem textBytes_inj {s t : String} (hs : s.utf8ByteSize < UInt32.size)
    (ht : t.utf8ByteSize < UInt32.size) (h : textBytes s ++ rest = textBytes t ++ rest') :
    s = t ∧ rest = rest' := by
  simp only [textBytes, List.append_assoc] at h
  obtain ⟨size, h⟩ := countBytes_inj hs ht h
  obtain ⟨same, follows⟩ := List.append_inj h (by rw [length_utf8, length_utf8, size])
  exact ⟨utf8_inj same, follows⟩

theorem hintBytes_inj {m n : Option UInt32} (h : hintBytes m ++ rest = hintBytes n ++ rest') :
    m = n ∧ rest = rest' := by
  cases m with
  | none =>
    cases n with
    | none => exact ⟨rfl, List.append_cancel_left h⟩
    | some n => simp [hintBytes] at h
  | some m =>
    cases n with
    | none => simp [hintBytes] at h
    | some n =>
      simp only [hintBytes, List.cons_append, List.cons.injEq, true_and] at h
      obtain ⟨same, follows⟩ := countBytes_inj m.toNat_lt_size n.toNat_lt_size h
      exact ⟨congrArg some (UInt32.toNat_inj.1 same), follows⟩

theorem alignByte_inj {a b : Option Align} (h : alignByte a = alignByte b) : a = b := by
  rcases a with _ | ⟨⟨⟩⟩ <;> rcases b with _ | ⟨⟨⟩⟩ <;> revert h <;> decide

theorem cardinalityByte_inj {a b : Cardinality} (h : cardinalityByte a = cardinalityByte b) :
    a = b := by
  cases a <;> cases b <;> revert h <;> decide

theorem formatBytes_inj {f g : Format} (h : formatBytes f ++ rest = formatBytes g ++ rest') :
    f = g ∧ rest = rest' := by
  simp only [formatBytes, List.append_assoc] at h
  obtain ⟨size, h⟩ := hintBytes_inj h
  obtain ⟨occurs, h⟩ := hintBytes_inj h
  simp only [List.cons_append, List.nil_append, List.cons.injEq] at h
  obtain ⟨align, follows⟩ := h
  have align' := alignByte_inj align
  cases f
  cases g
  simp_all

theorem optionalByte_inj {a b : Bool} (h : (if a then 1 else 0 : UInt8) = if b then 1 else 0) :
    a = b := by
  cases a <;> cases b <;> revert h <;> decide

end Bytes

end Fingerprint

/-! ## Schemas small enough -/

/-- The name and the written type are counted by four bytes. -/
structure Node.Small (n : Node) : Prop where
  name : n.name.utf8ByteSize < UInt32.size
  element : n.element.display.utf8ByteSize < UInt32.size

/-- Names are shorter than four bytes can count, and records have fewer members and fewer skipped
fields. -/
inductive Schema.Small : Schema → Prop where
  | leaf {node : Node} {kind : Kind} : node.Small → kind.name.utf8ByteSize < UInt32.size →
      Small (.leaf node kind)
  | record {node : Node} {members : List Schema} : node.Small → members.length < UInt32.size →
      node.skipped.length < UInt32.size →
      (∀ name ∈ node.skipped, name.utf8ByteSize < UInt32.size) → (∀ m ∈ members, m.Small) →
      Small (.record node members)

namespace Fingerprint

variable {rest rest' : List UInt8}

/-- The shared part of a node tells how all of it is written but the skipped names. -/
theorem nodeBytes_inj {m n : Node} (hm : m.Small) (hn : n.Small)
    (h : nodeBytes m ++ rest = nodeBytes n ++ rest') :
    (∀ skipped, m.rendered skipped = n.rendered skipped) ∧ rest = rest' := by
  simp only [nodeBytes, List.append_assoc] at h
  obtain ⟨name, h⟩ := textBytes_inj hm.name hn.name h
  obtain ⟨element, h⟩ := textBytes_inj hm.element hn.element h
  simp only [List.cons_append, List.nil_append, List.cons.injEq] at h
  obtain ⟨cardinality, optional, h⟩ := h
  obtain ⟨format, follows⟩ := formatBytes_inj h
  refine ⟨fun skipped => ?_, follows⟩
  exact Node.ext name (congrArg Ty.named element) (cardinalityByte_inj cardinality)
    (optionalByte_inj optional) format rfl

theorem texts_inj {xs ys : List String} (hxs : ∀ x ∈ xs, x.utf8ByteSize < UInt32.size)
    (hys : ∀ y ∈ ys, y.utf8ByteSize < UInt32.size) (length : xs.length = ys.length)
    (h : xs.flatMap textBytes = ys.flatMap textBytes) : xs = ys := by
  induction xs generalizing ys with
  | nil => exact (List.length_eq_zero_iff.1 length.symm).symm
  | cons x xs ih =>
    cases ys with
    | nil => cases length
    | cons y ys =>
      rw [List.flatMap_cons, List.flatMap_cons] at h
      obtain ⟨first, h⟩ := textBytes_inj (hxs x List.mem_cons_self) (hys y List.mem_cons_self) h
      rw [first, ih (fun z hz => hxs z (List.mem_cons_of_mem _ hz))
        (fun z hz => hys z (List.mem_cons_of_mem _ hz)) (Nat.succ.inj length) h]

theorem skippedBytes_inj {xs ys : List String} (nx : xs.length < UInt32.size)
    (ny : ys.length < UInt32.size) (hxs : ∀ x ∈ xs, x.utf8ByteSize < UInt32.size)
    (hys : ∀ y ∈ ys, y.utf8ByteSize < UInt32.size) (h : skippedBytes xs = skippedBytes ys) :
    xs = ys := by
  obtain ⟨length, texts⟩ := countBytes_inj nx ny h
  exact texts_inj hxs hys length texts

end Fingerprint

theorem Sample.small_person : person.Small := by
  refine .record ⟨by decide, by decide⟩ (by decide) (by decide) (by decide) fun m hm => ?_
  simp only [List.mem_cons, List.not_mem_nil, or_false] at hm
  rcases hm with rfl | rfl
  · exact .leaf ⟨by decide, by decide⟩ (by decide)
  · exact .leaf ⟨by decide, by decide⟩ (by decide)

/-! ## Schemas of one fingerprint -/

namespace Schema

open Fingerprint Sha256

mutual

/-- The byte strings that are digested on the way to a fingerprint. -/
def hashed : Schema → List (List UInt8)
  | leaf node kind => [digested (leaf node kind)]
  | record node members => digested (record node members) :: hashedAll members

def hashedAll : List Schema → List (List UInt8)
  | [] => []
  | member :: rest => member.hashed ++ hashedAll rest

end

theorem digested_mem_hashed (s : Schema) : s.digested ∈ s.hashed := by
  cases s <;> exact List.mem_cons_self

mutual

/-- Where nothing collides, the digested bytes tell how a schema is written: members enter by
digests, whose preimages are among the byte strings compared. -/
theorem rendered_eq_of_digested_eq {messages : List (List UInt8)} (free : ¬ Collision messages) :
    {s t : Schema} → s.Small → t.Small → (∀ x ∈ s.hashed, x ∈ messages) →
    (∀ x ∈ t.hashed, x ∈ messages) → s.digested = t.digested → s.rendered = t.rendered
  | .leaf m j, .leaf n k, hs, ht, _, _, same => by
    cases hs with
    | leaf small kind =>
      cases ht with
      | leaf small' kind' =>
        simp only [digested] at same
        obtain ⟨node, tail⟩ := nodeBytes_inj small small' same
        have texts : textBytes j.name ++ [] = textBytes k.name ++ [] := by simpa using tail
        have kinds : j.name = k.name := (textBytes_inj kind kind' texts).1
        rw [rendered, rendered, node, kinds]
  | .record m xs, .record n ys, hs, ht, hx, hy, same => by
    cases hs with
    | record small count skipped names all =>
      cases ht with
      | record small' count' skipped' names' all' =>
        simp only [digested, List.append_assoc, List.cons_append] at same
        obtain ⟨node, tail⟩ := nodeBytes_inj small small' same
        rw [List.cons.injEq] at tail
        obtain ⟨length, members⟩ := countBytes_inj count count' tail.2
        obtain ⟨written, left⟩ := renderedAll_eq_of_memberDigests_eq free all all'
          (fun x h => hx x (List.mem_cons_of_mem _ h)) (fun x h => hy x (List.mem_cons_of_mem _ h))
          length members
        have dropped : m.skipped = n.skipped := skippedBytes_inj skipped skipped' names names' left
        rw [rendered, rendered, node, dropped, written]
  | .leaf m j, .record n ys, hs, ht, _, _, same => by
    cases hs with
    | leaf small =>
      cases ht with
      | record small' =>
        simp only [digested, List.append_assoc, List.cons_append] at same
        simpa using (nodeBytes_inj small small' same).2
  | .record m xs, .leaf n k, hs, ht, _, _, same => by
    cases hs with
    | record small =>
      cases ht with
      | leaf small' =>
        simp only [digested, List.append_assoc, List.cons_append] at same
        simpa using (nodeBytes_inj small small' same).2

theorem renderedAll_eq_of_memberDigests_eq {messages : List (List UInt8)}
    (free : ¬ Collision messages) : {xs ys : List Schema} → {rest rest' : List UInt8} →
    (∀ x ∈ xs, x.Small) → (∀ y ∈ ys, y.Small) → (∀ x ∈ hashedAll xs, x ∈ messages) →
    (∀ y ∈ hashedAll ys, y ∈ messages) → xs.length = ys.length →
    memberDigests xs ++ rest = memberDigests ys ++ rest' →
    renderedAll xs = renderedAll ys ∧ rest = rest'
  | [], [], _, _, _, _, _, _, _, same => ⟨rfl, same⟩
  | x :: xs, y :: ys, _, _, hxs, hys, hx, hy, length, same => by
    simp only [memberDigests, List.append_assoc] at same
    obtain ⟨digests, same⟩ := List.append_inj same
      ((length_digest _).trans (length_digest _).symm)
    have known : ∀ z ∈ x.hashed, z ∈ messages := fun z h => hx z (List.mem_append_left _ h)
    have known' : ∀ z ∈ y.hashed, z ∈ messages := fun z h => hy z (List.mem_append_left _ h)
    have bytes : x.digested = y.digested := eq_of_digest_eq free
      (known _ x.digested_mem_hashed) (known' _ y.digested_mem_hashed) digests
    have first : x.rendered = y.rendered := rendered_eq_of_digested_eq free
      (hxs x List.mem_cons_self) (hys y List.mem_cons_self) known known' bytes
    obtain ⟨others, follows⟩ := renderedAll_eq_of_memberDigests_eq free
      (fun z h => hxs z (List.mem_cons_of_mem _ h)) (fun z h => hys z (List.mem_cons_of_mem _ h))
      (fun z h => hx z (List.mem_append_right _ h)) (fun z h => hy z (List.mem_append_right _ h))
      (Nat.succ.inj length) same
    exact ⟨by rw [renderedAll, renderedAll, first, others], follows⟩
  | [], _ :: _, _, _, _, _, _, _, length, _ => by cases length
  | _ :: _, [], _, _, _, _, _, _, length, _ => by cases length

end

/-- Schemas of one fingerprint are written alike, where nothing collides. -/
theorem rendered_eq_of_fingerprint_eq {messages : List (List UInt8)} (free : ¬ Collision messages)
    {s t : Schema} (hs : s.Small) (ht : t.Small) (known : ∀ x ∈ s.hashed, x ∈ messages)
    (known' : ∀ x ∈ t.hashed, x ∈ messages) (same : s.fingerprint = t.fingerprint) :
    s.rendered = t.rendered := by
  have digests : digest s.digested = digest t.digested := congrArg Fingerprint.bytes same
  exact rendered_eq_of_digested_eq free hs ht known known'
    (eq_of_digest_eq free (known _ s.digested_mem_hashed) (known' _ t.digested_mem_hashed) digests)

/-- A fingerprint tells the schemas that readers return, down to types, hints and skipped names,
unless the digest collides on two of the byte strings that went into the two fingerprints. -/
theorem Readable.eq_of_fingerprint_eq {s t : Schema} (hs : s.Readable) (ht : t.Readable)
    (small : s.Small) (small' : t.Small) (same : s.fingerprint = t.fingerprint) :
    s = t ∨ Collision (s.hashed ++ t.hashed) := by
  by_cases free : Collision (s.hashed ++ t.hashed)
  · exact .inr free
  · have written := rendered_eq_of_fingerprint_eq free small small'
      (fun _ h => List.mem_append_left _ h) (fun _ h => List.mem_append_right _ h) same
    exact .inl (hs.faithful.eq_of_rendered_eq ht.faithful written)

/-- The sample record read by two readers, one of which knows the text's type by another name. -/
theorem Readable.eq_of_fingerprint_eq_person : ∃ t : Schema, t.Readable ∧
    Sample.person.fingerprint = t.fingerprint ∧
    (Sample.person = t ∨ Collision (Sample.person.hashed ++ t.hashed)) := by
  let aliased : Registry :=
    ⟨[.typeAlias "label" (.primitive .string), .record "person" [
      ⟨"name", .named "label", .unset, false⟩,
      ⟨"tags", .option (.list (.primitive .u8)), .unset, false⟩]], [], []⟩
  obtain ⟨kept, read, rendered⟩ : ∃ kept,
      ((Reader.ofRegistry aliased).read (.named "person")).1 = .ok kept ∧
        kept.value = Sample.person := ⟨⟨0, Sample.person⟩, by cbv, rfl⟩
  have readable : kept.value.Readable :=
    ⟨.ofRegistry aliased, .named "person", none, kept, .start aliased, read, rfl⟩
  have same : Sample.person.fingerprint = kept.value.fingerprint := by rw [rendered]
  have small : kept.value.Small := rendered ▸ Sample.small_person
  exact ⟨kept.value, readable, same, Readable.eq_of_fingerprint_eq Sample.readable_person readable
    Sample.small_person small same⟩

/-! ## Schemas with their parts -/

section Parts

variable {s : Schema}

theorem Small.mapNode {change : Node → Node} (small : ∀ n : Node, n.Small → (change n).Small)
    (skipped : ∀ n, (change n).skipped = n.skipped) (h : s.Small) : (s.mapNode change).Small := by
  cases h with
  | leaf node kind => exact .leaf (small _ node) kind
  | record node count dropped names all =>
    exact .record (small _ node) count ((skipped _).symm ▸ dropped) ((skipped _).symm ▸ names) all

theorem Small.of_mem_views (h : s.Small) : ∀ v ∈ s.views, v.Small := by
  intro v hv
  rcases mem_views_iff.1 hv with rfl | ⟨_, rfl⟩ | ⟨_, rfl⟩
  · exact h
  · exact h.mapNode (fun _ small => ⟨small.name, small.element⟩) fun _ => rfl
  · exact h.mapNode (fun _ small => ⟨small.name, small.element⟩) fun _ => rfl

theorem Small.of_mem_members (h : s.Small) : ∀ m ∈ s.members, m.Small := by
  cases h with
  | leaf => exact nofun
  | record _ _ _ _ all => exact all

theorem Small.of_mem_parts (h : s.Small) : ∀ p ∈ s.parts, p.Small :=
  Schema.of_mem_parts (fun _ => Small.of_mem_views) (fun _ => Small.of_mem_members) s h

theorem Faithful.mapNode {change : Node → Node} (element : ∀ n, (change n).element = n.element)
    (skipped : ∀ n, (change n).skipped = n.skipped) (h : s.Faithful) :
    (s.mapNode change).Faithful := by
  cases h with
  | leaf type none plain => exact .leaf ((element _).trans type) ((skipped _).trans none) plain
  | record type all => exact .record ((element _).trans type) all

theorem Faithful.of_mem_views (h : s.Faithful) : ∀ v ∈ s.views, v.Faithful := by
  intro v hv
  rcases mem_views_iff.1 hv with rfl | ⟨_, rfl⟩ | ⟨_, rfl⟩
  · exact h
  · exact h.mapNode (fun _ => rfl) fun _ => rfl
  · exact h.mapNode (fun _ => rfl) fun _ => rfl

theorem Faithful.of_mem_members (h : s.Faithful) : ∀ m ∈ s.members, m.Faithful := by
  cases h with
  | leaf => exact nofun
  | record _ all => exact all

theorem Faithful.of_mem_parts (h : s.Faithful) : ∀ p ∈ s.parts, p.Faithful :=
  Schema.of_mem_parts (fun _ => Faithful.of_mem_views) (fun _ => Faithful.of_mem_members) s h

end Parts

end Schema

namespace Fingerprint

variable {schemas : List Schema}

/-- Of the schemas, with all their parts, those that share a fingerprint are written alike. -/
def Discerns (schemas : List Schema) : Prop :=
  ∀ a ∈ schemas.flatMap Schema.parts, ∀ b ∈ schemas.flatMap Schema.parts,
    a.fingerprint = b.fingerprint → a.rendered = b.rendered

theorem Discerns.mono {few : List Schema} (h : Discerns schemas) (sub : ∀ s ∈ few, s ∈ schemas) :
    Discerns few :=
  fun a ha b hb =>
    h a (Schema.mem_flatMap_parts_mono sub ha) b (Schema.mem_flatMap_parts_mono sub hb)

/-- The byte strings that are digested for the fingerprints of the schemas and of their parts. -/
def messages (schemas : List Schema) : List (List UInt8) :=
  (schemas.flatMap Schema.parts).flatMap Schema.hashed

/-- Fingerprints discern small schemas, where nothing collides. -/
theorem discerns_of_free (small : ∀ s ∈ schemas, s.Small)
    (free : ¬ Sha256.Collision (messages schemas)) : Discerns schemas := by
  have smallPart : ∀ p ∈ schemas.flatMap Schema.parts, p.Small := by
    intro p hp
    obtain ⟨s, hs, hp⟩ := List.mem_flatMap.1 hp
    exact (small s hs).of_mem_parts p hp
  intro a ha b hb same
  exact Schema.rendered_eq_of_fingerprint_eq free (smallPart a ha) (smallPart b hb)
    (fun _ hx => List.mem_flatMap.2 ⟨a, ha, hx⟩) (fun _ hx => List.mem_flatMap.2 ⟨b, hb, hx⟩) same

end Fingerprint

end Slotform
