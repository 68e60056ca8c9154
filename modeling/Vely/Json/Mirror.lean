import Vely.Json.Reader
import Vely.Json.StringFrame

/-!
# The state of the parser and the state of the reader

A state of the parser mirrors one of the reader when the bytes from the position on are what is left
of the text, but for the byte that was overwritten last; when the levels of the stack have
the names and indices of the reader; and when the nodes have the names, types and values of the
leaves.  The names and values lie before the position, and what is written later lies behind it.
-/

namespace Vely

/-- A name of the stack lies in the text before `i`. -/
def NameAt (val : List UInt8) (i : Nat) (node : JsonNode) (name : List UInt8) : Prop :=
  match node.name with
  | some p => p + node.nameLen ≤ i ∧ (val.drop p).take node.nameLen = name
  | none => node.nameLen = 0 ∧ name = []

/-- The value of a node lies in the text, and ends at `i` at the latest. -/
structure NodeAt (val : List UInt8) (i : Nat) (n : Jsonn) (leaf : JsonLeaf) : Prop where
  name : n.name = leaf.name
  type : n.type = leaf.type
  stop : n.str + leaf.value.length ≤ i
  value : (val.drop n.str).take leaf.value.length = leaf.value
  terminated : byteAt val (n.str + leaf.value.length) = 0
  nonzero : 0 ∉ leaf.value

/-- The state of the parser, at the given depth, mirrors that of the reader.  At the end of the text
the number of levels does not matter any more. -/
structure Mirrors (len : Nat) (st : JsonState) (depth : Nat) (r : JsonReader) : Prop where
  size : st.i + r.rest.length = len
  nulled : st.nulled = if r.held then byteAt r.rest 0 else 0
  text : st.val.drop st.i = if r.held then 0 :: (r.rest ++ [0]).tail else r.rest ++ [0]
  depth_eq : st.depth = depth
  listC : r.rest ≠ [] → st.listC = (r.top : Int) - 1
  bounded : r.rest ≠ [] → r.top < jsonMaxNested
  list : st.list.length = jsonMaxNested
  levels : ∀ k node, st.list[k]? = some node →
    node.index = (r.levels k).index ∧ NameAt st.val st.i node (r.levels k).name
  nodes : List.Forall₂ (NodeAt st.val st.i) st.nodes r.leaves
  ec : st.ec = -1

section Frame

variable {val val' : List UInt8} {i j : Nat}

theorem take_drop_of_take {p n : Nat} (h : val'.take i = val.take i) (hp : p + n ≤ i) :
  (val'.drop p).take n = (val.drop p).take n
  := by
  have hn := congrArg (fun v => (v.drop p).take n) h
  simpa [List.drop_take, List.take_take, Nat.min_eq_left (show n ≤ i - p by omega)] using hn

theorem byteAt_of_take {k : Nat} (h : val'.take i = val.take i) (hk : k < i) :
  byteAt val' k = byteAt val k
  := by
  have hk' := congrArg (fun v => byteAt v k) h
  simpa [byteAt, List.getD_eq_getElem?_getD, List.getElem?_take, hk] using hk'

/-- A name stays where it is. -/
theorem NameAt.frame {node : JsonNode} {name : List UInt8} (h : NameAt val i node name)
    (hval : val'.take i = val.take i) (hij : i ≤ j) :
  NameAt val' j node name
  := by
  rw [NameAt] at h ⊢
  split at h
  · next p _ =>
    refine ⟨by omega, ?_⟩
    rw [take_drop_of_take hval h.1, h.2]
  · exact h

/-- A value stays where it is, with its terminator. -/
theorem NodeAt.frame {n : Jsonn} {leaf : JsonLeaf} (h : NodeAt val i n leaf)
    (hval : val'.take (i + 1) = val.take (i + 1)) (hij : i ≤ j) :
  NodeAt val' j n leaf
  where
  name := h.name
  type := h.type
  stop := h.stop.trans hij
  value := by
    rw [take_drop_of_take hval (by have hstop := h.stop; omega), h.value]
  terminated := by
    rw [byteAt_of_take hval (by have hstop := h.stop; omega), h.terminated]
  nonzero := h.nonzero

end Frame

section Mirrors

variable {len depth : Nat} {st : JsonState} {r : JsonReader} {c : UInt8} {rest : List UInt8}

namespace Mirrors

theorem length_val (h : Mirrors len st depth r) :
  st.val.length = len + 1
  := by
  have hlen := congrArg List.length h.text
  have hsize := h.size
  rw [List.length_drop] at hlen
  split at hlen <;> simp at hlen <;> omega

/-- The byte that is read is the next one of the text. -/
theorem nchar_eq (h : Mirrors len st depth r) (hr : r.rest = c :: rest) :
  st.nchar.1 = c
  := by
  have hnulled := h.nulled
  have htext := congrArg (fun s => byteAt s 0) h.text
  rw [hr] at hnulled htext
  simp only [byteAt_drop, Nat.add_zero] at htext
  rw [JsonState.nchar]
  split
  · next hne =>
    rw [hnulled] at hne ⊢
    split
    · rfl
    · next hheld => simp [hheld] at hne
  · next hzero =>
    rw [htext]
    split
    · next hheld =>
      have hc : c = 0 := by simpa [hnulled, hheld] using hzero
      rw [hc]
      rfl
    · rfl

/-- When a byte was read, nothing is remembered. -/
theorem nulled_nchar (h : Mirrors len st depth r) :
  st.nchar.2 = { st with nulled := 0 }
  := by
  rw [JsonState.nchar]
  split
  · rfl
  · next hzero =>
    have hst : st.nulled = 0 := by simpa using hzero
    cases st
    simp only at hst
    rw [hst]

/-- The text behind the next byte. -/
theorem drop_succ (h : Mirrors len st depth r) (hr : r.rest = c :: rest) :
  st.val.drop (st.i + 1) = rest ++ [0]
  := by
  have htext := congrArg List.tail h.text
  rw [hr, List.tail_drop] at htext
  rw [htext]
  split <;> simp

/-- The text from the next byte on, when it was not overwritten. -/
theorem drop_eq (h : Mirrors len st depth r) (hheld : r.held = false) :
  st.val.drop st.i = r.rest ++ [0]
  := by
  rw [h.text, hheld]
  rfl

/-- The next byte is passed. -/
theorem skip (h : Mirrors len st depth r) (hr : r.rest = c :: rest) :
  Mirrors len ({ st with nulled := 0 }.skip 1) depth { r with rest, held := false }
  where
  size := by
    have hsize := h.size
    rw [hr] at hsize
    simp only [JsonState.skip, List.length_cons] at hsize ⊢
    omega
  nulled := by simp [JsonState.skip]
  text := by
    simp only [JsonState.skip]
    rw [h.drop_succ hr]
    simp
  depth_eq := h.depth_eq
  listC _ := h.listC (by simp [hr])
  bounded _ := h.bounded (by simp [hr])
  list := h.list
  levels := by
    intro k node hnode
    obtain ⟨hindex, hname⟩ := h.levels k node hnode
    exact ⟨hindex, hname.frame rfl (by simp [JsonState.skip])⟩
  nodes := by
    apply h.nodes.imp
    intro n leaf hn
    exact hn.frame rfl (by simp [JsonState.skip])
  ec := h.ec

/-- The normalized name of a leaf, when the text is changed from the position on only. -/
theorem fullname (h : Mirrors len st depth r) (hrest : r.rest ≠ []) (htop : 1 ≤ r.top)
    {val' : List UInt8} (hval : val'.take st.i = st.val.take st.i)
    (hlen : val'.length = st.val.length) :
  velyJsonFullname val' st.list st.listC = .ok (JsonReader.leafName r.levels (r.top - 1))
  := by
  have hlistC : st.listC = ((r.top - 1 : Nat) : Int) := by
    rw [h.listC hrest]
    omega
  have hparts : ∀ n, n ≤ jsonMaxNested →
      nameParts val' st.list n = .ok (JsonReader.nameOf r.levels n) := by
    intro n hn
    induction n with
    | zero => rfl
    | succ n ih =>
      have hlt : n < st.list.length := by
        rw [h.list]
        omega
      have hnode := List.getElem?_eq_getElem hlt
      obtain ⟨hindex, hname⟩ := h.levels n _ hnode
      have hbytes : nameBytes val' st.list[n] = .ok (r.levels n).name := by
        replace hname := hname.frame hval le_rfl
        rw [NameAt] at hname
        rw [nameBytes]
        cases hp : st.list[n].name with
        | some p =>
          have hlen' := h.length_val
          have hsize := h.size
          simp only [hp] at hname ⊢
          rw [if_pos (by omega), hname.2]
        | none =>
          simp only [hp] at hname ⊢
          rw [hname.2, if_pos hname.1]
      rw [nameParts, ih (by omega), ok_bind, hnode, deref_some, ok_bind, hbytes, hindex]
      rfl
  have hbounded := h.bounded hrest
  rw [velyJsonFullname, hlistC, JsonReader.leafName]
  by_cases htop0 : r.top - 1 = 0
  · simp [htop0]
  · rw [if_neg (by omega), if_neg htop0, Int.toNat_natCast, hparts _ (by omega)]

end Mirrors

end Mirrors

end Vely
