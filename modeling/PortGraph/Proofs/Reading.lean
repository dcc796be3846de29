import Mathlib.Data.List.Basic
import PortGraph.Graph.Text
import PortGraph.Node
import PortGraph.Proofs.Connecting
import PortGraph.Proofs.Spelling
import PortGraph.Proofs.Storing

/-!
# What the text of a graph tells

The text of a graph of vertices with textual weights has a line for the graph, and for each vertex
a heading and a line for every entry of its outputs. A weight may look like anything, also like
another part of such a text, as long as it contains no line break. Even so the text tells how it
came about: it is taken apart into its lines; a heading and the line of a connection differ in their
third character, so that the lines are taken apart into those of the vertices
(`Portrait.lines_inj`); and in a heading the last bracket that opens is the one behind the weight
(`Portrait.label_inj`).

So the text tells the identity of the graph, its vertices with their weights and numbers of ports,
and what the outputs list (`portraits_eq_of_textWith_eq`). What the inputs of a consistent graph
list follows up to its order.
-/

namespace PortGraph

/-- A vertex lists at each port what the port is in contact with. -/
theorem Vertex.peers_eq_of_contacts_eq {φ : Flavour} {ν : Type} [Vertex φ ν] {d : Direction}
    {id : NodeId} {v w : ν} (h : contacts d id v = contacts d id w) (i : Nat) :
    peers d i v = peers d i w := by
  have hlinks : links d id v = links d id w := by rw [links, h, links]
  have hends := congrArg (Link.farEnds d ⟨id, i⟩) hlinks
  rwa [farEnds_links, farEnds_links, if_pos rfl, if_pos rfl] at hends

/-! ## Portraits -/

/-- What the text of a graph shows of a vertex. -/
structure Portrait where
  weight : String
  inputs : Nat
  outputs : Nat
  /-- The entries of the outputs, each with the output that lists it. -/
  contacts : List (Slot × Slot)

namespace Portrait

/-- The text of a vertex by itself. -/
def label (p : Portrait) : String :=
  p.weight ++ " (" ++ toString p.inputs ++ " in, " ++ toString p.outputs ++ " out)"

/-- The first line for the vertex `id`. -/
def heading (id : NodeId) (p : Portrait) : String := "  " ++ id.text ++ ": " ++ p.label

/-- The line for one of its connections. -/
def contact (c : Slot × Slot) : String :=
  "    " ++ c.1.text .outgoing ++ " -> " ++ c.2.text .incoming

/-- All lines for a vertex. -/
def lines (e : NodeId × Portrait) : List String := heading e.1 e.2 :: e.2.contacts.map contact

/-- What the text of a graph shows of the vertex `id`. -/
def of {φ : Flavour} (id : NodeId) (v : Node φ String) : Portrait where
  weight := v.weight
  inputs := v.inputs.length
  outputs := v.outputs.length
  contacts := Vertex.contacts .outgoing id v

/-! ### Lines for vertices -/

theorem toList_label (p : Portrait) :
    p.label.toList = (p.weight.toList ++ [' ']) ++ '(' :: (Text.digits p.inputs ++
      ' ' :: ("in, ".toList ++ (Text.digits p.outputs ++ ' ' :: "out)".toList))) := by
  simp [label, Text.digits]

theorem toList_heading (id : NodeId) (p : Portrait) :
    (heading id p).toList =
      ' ' :: ' ' :: 'n' :: (Text.digits id.val ++ ':' :: ' ' :: p.label.toList) := by
  simp [heading, NodeId.text, Text.digits]

theorem toList_contact (c : Slot × Slot) :
    (contact c).toList = "    ".toList ++ ((c.1.text .outgoing).toList ++
      (" -> ".toList ++ (c.2.text .incoming).toList)) := by
  simp [contact]

/-- The label of a vertex tells its weight and the numbers of its ports. -/
theorem label_inj {p q : Portrait} (h : p.label = q.label) :
    p.weight = q.weight ∧ p.inputs = q.inputs ∧ p.outputs = q.outputs := by
  have hchars := congrArg String.toList h
  rw [toList_label, toList_label] at hchars
  have hopen (n m : Nat) : '(' ∉ Text.digits n ++
      ' ' :: ("in, ".toList ++ (Text.digits m ++ ' ' :: "out)".toList)) := by
    simp [Text.not_mem_digits]
  obtain ⟨hweight, _, hnumbers⟩ := Text.append_cons_inj_last (hopen _ _) (hopen _ _) hchars
  obtain ⟨hinputs, _, hrest⟩ := Text.digits_append_inj (by decide) (by decide) hnumbers
  obtain ⟨houtputs, _⟩ :=
    Text.digits_append_inj (by decide) (by decide) (List.append_cancel_left hrest)
  exact ⟨String.toList_inj.mp (List.append_cancel_right hweight), hinputs, houtputs⟩

/-- Its heading also tells its identifier. -/
theorem heading_inj {id k : NodeId} {p q : Portrait} (h : heading id p = heading k q) :
    id = k ∧ p.label = q.label := by
  have hchars := congrArg String.toList h
  simp only [toList_heading, List.cons.injEq, true_and] at hchars
  obtain ⟨hid, _, hlabel⟩ := Text.digits_append_inj (by decide) (by decide) hchars
  exact ⟨NodeId.ext hid, String.toList_inj.mp (List.cons.inj hlabel).2⟩

/-- The line of a connection tells both of its ends. -/
theorem contact_injective : Function.Injective contact := by
  intro c c' h
  have hchars := congrArg String.toList h
  rw [toList_contact, toList_contact] at hchars
  obtain ⟨hown, hrest⟩ := Address.text_append_inj (List.append_cancel_left hchars)
  have hfar := Address.text_inj (String.toList_inj.mp (List.append_cancel_left hrest))
  exact Prod.ext (Slot.at_inj.mp hown).1 (Slot.at_inj.mp hfar).1

/-! ### Lines for all vertices -/

/-- The third character of a heading begins the identifier. -/
def isHeading (l : String) : Bool := l.toList[2]? == some 'n'

theorem isHeading_heading (id : NodeId) (p : Portrait) : isHeading (heading id p) = true := by
  simp [isHeading, toList_heading]

/-- In the line of a connection it is a blank. -/
theorem isHeading_contact (c : Slot × Slot) : isHeading (contact c) = false := by
  simp [isHeading, toList_contact]

/-- The connections of a vertex go on to the next heading. -/
theorem takeWhile_contacts (cs : List (Slot × Slot)) (es : List (NodeId × Portrait)) :
    (cs.map contact ++ es.flatMap lines).takeWhile (fun l => !isHeading l) = cs.map contact := by
  have hcontacts : ∀ l ∈ cs.map contact, (!isHeading l) = true := by
    intro l hl
    obtain ⟨c, _, rfl⟩ := List.mem_map.mp hl
    rw [isHeading_contact, Bool.not_false]
  rw [List.takeWhile_append_of_pos hcontacts]
  cases es with
  | nil => exact List.append_nil _
  | cons e es =>
    rw [List.flatMap_cons, lines, List.cons_append, List.takeWhile_cons_of_neg, List.append_nil]
    rw [isHeading_heading]
    decide

theorem lines_cons (id : NodeId) (p : Portrait) (es : List (NodeId × Portrait)) :
    ((id, p) :: es).flatMap lines = heading id p :: (p.contacts.map contact ++ es.flatMap lines) :=
  rfl

/-- The lines for some vertices tell which vertices these are. -/
theorem lines_inj {es fs : List (NodeId × Portrait)} (h : es.flatMap lines = fs.flatMap lines) :
    es = fs := by
  induction es generalizing fs with
  | nil =>
    cases fs with
    | nil => rfl
    | cons f fs => cases h
  | cons e es ih =>
    cases fs with
    | nil => cases h
    | cons f fs =>
      obtain ⟨id, weight, inputs, outputs, cs⟩ := e
      obtain ⟨id', weight', inputs', outputs', cs'⟩ := f
      rw [lines_cons, lines_cons] at h
      obtain ⟨hheading, hrest⟩ := List.cons.inj h
      obtain ⟨rfl, hlabel⟩ := heading_inj hheading
      obtain ⟨rfl, rfl, rfl⟩ := label_inj hlabel
      have hcontacts := congrArg (List.takeWhile fun l => !isHeading l) hrest
      rw [takeWhile_contacts, takeWhile_contacts] at hcontacts
      obtain rfl : cs = cs' := List.map_injective_iff.mpr contact_injective hcontacts
      rw [ih (List.append_cancel_left hrest)]

/-- Only the weight of a vertex could bring a line break into its lines. -/
theorem not_mem_lines {e : NodeId × Portrait} (hweight : '\n' ∉ e.2.weight.toList) :
    ∀ l ∈ lines e, '\n' ∉ l.toList := by
  intro l hl
  rcases List.mem_cons.mp hl with rfl | hl
  · rw [toList_heading, toList_label]
    simp [Text.not_mem_digits, hweight]
  · obtain ⟨⟨own, far⟩, _, rfl⟩ := List.mem_map.mp hl
    simp [toList_contact, Slot.text, Slot.at, Address.toList_text, Direction.text,
      Text.not_mem_digits]

/-- What is written for a vertex are the lines of its portrait. -/
theorem vertexLines_eq {φ : Flavour} (id : NodeId) (v : Node φ String) :
    Graph.vertexLines v.text id v = Text.unlines (lines (id, .of id v)) := by
  have hlabel : v.text = (Portrait.of id v).label := rfl
  rw [Graph.vertexLines, hlabel, lines, Text.unlines_cons, Text.unlines, List.map_map]
  rfl

end Portrait

/-! ## Graphs -/

namespace Graph

variable {φ : Flavour}

/-- No weight contains a line break. -/
def Legible (g : Graph (Node φ String)) : Prop := ∀ v ∈ g.vertices.values, '\n' ∉ v.weight.toList

instance (g : Graph (Node φ String)) : Decidable g.Legible :=
  inferInstanceAs (Decidable (∀ v ∈ g.vertices.values, '\n' ∉ v.weight.toList))

/-- What the text shows of all vertices. -/
def portraits (g : Graph (Node φ String)) : IdMap Portrait := g.vertices.mapValues Portrait.of

theorem get?_portraits (g : Graph (Node φ String)) (k : NodeId) :
    g.portraits.get? k = (g.find? k).map (Portrait.of k) :=
  IdMap.get?_mapValues g.vertices Portrait.of k

/-- The line for the graph. -/
def header (g : Graph (Node φ String)) : String :=
  "graph " ++ g.id.text ++ " (" ++ toString g.size ++ " vertices)"

theorem toList_header (g : Graph (Node φ String)) :
    g.header.toList = "graph g".toList ++ (Text.digits g.id.val ++
      ' ' :: ('(' :: Text.digits g.size ++ " vertices)".toList)) := by
  simp [header, GraphId.text, Text.digits]

/-- The text of a graph is made of its own line and the lines of its vertices. -/
theorem textWith_eq_unlines (g : Graph (Node φ String)) :
    g.textWith Node.text =
      Text.unlines (g.header :: g.portraits.entries.flatMap Portrait.lines) := by
  have hvertices : (g.vertices.entries.map fun e => vertexLines e.2.text e.1 e.2) =
      g.portraits.entries.map fun e => Text.unlines (Portrait.lines e) := by
    rw [portraits, IdMap.mapValues, List.map_map]
    exact List.map_congr_left fun e _ => Portrait.vertexLines_eq e.1 e.2
  have hbreak (s : String) : s ++ " vertices)" ++ "\n" = s ++ " vertices)\n" :=
    String.append_assoc.trans rfl
  rw [Text.unlines_cons, Text.unlines_flatMap, ← hvertices, header, hbreak]
  rfl

/-- The line for a graph tells its identity. -/
theorem id_eq_of_header_eq {g h : Graph (Node φ String)} (hheader : g.header = h.header) :
    g.id = h.id := by
  have hchars := congrArg String.toList hheader
  rw [toList_header, toList_header] at hchars
  obtain ⟨hid, _⟩ :=
    Text.digits_append_inj (by decide) (by decide) (List.append_cancel_left hchars)
  rwa [← GraphId.mk.injEq] at hid

/-- Only the weights could bring a line break into the lines of a graph. -/
theorem Legible.not_mem_lines {g : Graph (Node φ String)} (hg : g.Legible) :
    ∀ l ∈ g.header :: g.portraits.entries.flatMap Portrait.lines, '\n' ∉ l.toList := by
  intro l hl
  rcases List.mem_cons.mp hl with rfl | hl
  · rw [toList_header]
    simp [Text.not_mem_digits]
  · obtain ⟨e, he, hl⟩ := List.mem_flatMap.mp hl
    obtain ⟨⟨k, v⟩, hv, rfl⟩ := List.mem_map.mp he
    exact Portrait.not_mem_lines (hg v (List.mem_map.mpr ⟨_, hv, rfl⟩)) l hl

/-- The text of a graph tells its identity and the portraits of its vertices. -/
theorem portraits_eq_of_textWith_eq {g h : Graph (Node φ String)} (hg : g.Legible)
    (hh : h.Legible) (htext : g.textWith Node.text = h.textWith Node.text) :
    g.id = h.id ∧ g.portraits = h.portraits := by
  rw [textWith_eq_unlines, textWith_eq_unlines] at htext
  obtain ⟨hheader, hlines⟩ :=
    List.cons.inj (Text.unlines_inj hg.not_mem_lines hh.not_mem_lines htext)
  exact ⟨id_eq_of_header_eq hheader, IdMap.ext_entries (Portrait.lines_inj hlines)⟩

/-! ## Lookalikes -/

/-- What graphs with the same text have in common. -/
structure Lookalike (g h : Graph (Node φ String)) : Prop where
  id_eq : g.id = h.id
  ids_eq : g.ids = h.ids
  weight_eq {k : NodeId} {v w : Node φ String} (hv : g.find? k = some v)
    (hw : h.find? k = some w) : v.weight = w.weight
  length_ports_eq {k : NodeId} {v w : Node φ String} (hv : g.find? k = some v)
    (hw : h.find? k = some w) (d : Direction) :
    (Vertex.ports d v).length = (Vertex.ports d w).length
  /-- Outputs list the same in the same order. -/
  outputs_eq (s : Slot) : g.peers .outgoing s = h.peers .outgoing s
  /-- Inputs list the same, perhaps in another order. -/
  perm_inputs (hg : g.Consistent) (hh : h.Consistent) (s : Slot) :
    (g.peers .incoming s).Perm (h.peers .incoming s)

/-- In consistent graphs the inputs list what the outputs make them list. -/
theorem Consistent.perm_peers_opposite {ν : Type} [Vertex φ ν] {g h : Graph ν} (hg : g.Consistent)
    (hh : h.Consistent) {d : Direction} (hpeers : ∀ s, g.peers d s = h.peers d s) (s : Slot) :
    (g.peers d.opposite s).Perm (h.peers d.opposite s) := by
  refine List.perm_iff_count.mpr fun t => ?_
  rw [← hg.count_comm d t s, ← hh.count_comm d t s, hpeers]

section

variable {g h : Graph (Node φ String)} (hportraits : g.portraits = h.portraits)
include hportraits

/-- Vertices have portraits in the same places. -/
theorem contains_eq_of_portraits_eq (k : NodeId) : g.contains k = h.contains k := by
  have hk : (g.portraits.get? k).isSome = (h.portraits.get? k).isSome := by rw [hportraits]
  rwa [get?_portraits, get?_portraits, Option.isSome_map, Option.isSome_map] at hk

/-- Vertices in the same place have the same portrait. -/
theorem of_eq_of_portraits_eq {k : NodeId} {v w : Node φ String} (hv : g.find? k = some v)
    (hw : h.find? k = some w) : Portrait.of k v = Portrait.of k w := by
  have hk : g.portraits.get? k = h.portraits.get? k := by rw [hportraits]
  rw [get?_portraits, get?_portraits, hv, hw] at hk
  exact Option.some.inj hk

/-- Outputs list the same, also where there are none. -/
theorem outputs_eq_of_portraits_eq (s : Slot) : g.peers .outgoing s = h.peers .outgoing s := by
  have hcontains := contains_eq_of_portraits_eq hportraits s.node
  cases hv : g.find? s.node with
  | none =>
    have hw : h.find? s.node = none := by
      rwa [← not_contains_iff, ← hcontains, not_contains_iff]
    rw [peers_eq_nil_of_find? hv, peers_eq_nil_of_find? hw]
  | some v =>
    obtain ⟨w, hw⟩ := contains_iff.mp (hcontains.symm.trans (contains_iff.mpr ⟨v, hv⟩))
    have hcontacts := congrArg Portrait.contacts (of_eq_of_portraits_eq hportraits hv hw)
    rw [peers_eq_of_find? hv, peers_eq_of_find? hw]
    exact Vertex.peers_eq_of_contacts_eq hcontacts s.offset

/-- Graphs with the same identity and the same portraits look alike. -/
theorem lookalike_of_portraits_eq (hid : g.id = h.id) : Lookalike g h where
  id_eq := hid
  ids_eq := IdMap.keys_congr (contains_eq_of_portraits_eq hportraits)
  weight_eq hv hw := congrArg Portrait.weight (of_eq_of_portraits_eq hportraits hv hw)
  length_ports_eq hv hw d := by
    have hportrait := of_eq_of_portraits_eq hportraits hv hw
    cases d with
    | incoming => exact congrArg Portrait.inputs hportrait
    | outgoing => exact congrArg Portrait.outputs hportrait
  outputs_eq := outputs_eq_of_portraits_eq hportraits
  perm_inputs hg hh := hg.perm_peers_opposite hh (outputs_eq_of_portraits_eq hportraits)

end

/-- Different addresses have different texts. Graphs of weighted vertices with the same text look
alike, if there are no line breaks in the weights: they have the same identity and the same vertices
with the same weights and numbers of ports, whose outputs list the same. -/
theorem texts_identify :
    (∀ a b : Address, a.text = b.text → a = b) ∧
      ∀ g h : Graph (Node φ String), g.Legible → h.Legible →
        g.textWith Node.text = h.textWith Node.text → Lookalike g h := by
  refine ⟨fun a b => Address.text_inj, fun g h hg hh htext => ?_⟩
  obtain ⟨hid, hportraits⟩ := portraits_eq_of_textWith_eq hg hh htext
  exact lookalike_of_portraits_eq hportraits hid

/-- Two vertices and a third one, which the slots are connected to in turn. The weights look like
other parts of the text. -/
def gathering (slots : List Slot) : Graph (Node .multi String) :=
  let g := ((Graph.empty .first).insert (Node.new "n2: (0 in, 1 out)" 0 1)).val.1
  let g := (g.insert (Node.new "    n1.output[0] -> n3.input[0]" 0 1)).val.1
  let g := (g.insert (Node.new " (7 in, " 1 0)).val.1
  slots.foldl (fun g s => (g.connect .outgoing s ⟨NodeId.first.next.next, 0⟩).val.1) g

theorem consistent_gathering (slots : List Slot) : (gathering slots).Consistent := by
  have hempty : (Graph.empty .first : Graph (Node .multi String)).Consistent :=
    consistent_of_vertices_eq_empty rfl
  exact List.foldlRecOn slots _ (((hempty.insert _).insert _).insert _)
    fun _ hg _ _ => hg.connect _ _ _

/-- The input of the third vertex lists the other vertices in the order in which they were
connected, of which the text tells nothing. -/
theorem texts_identify_gathering :
    let a : Slot := ⟨.first, 0⟩
    let b : Slot := ⟨NodeId.first.next, 0⟩
    let c : Slot := ⟨NodeId.first.next.next, 0⟩
    let g := gathering [a, b]
    let h := gathering [b, a]
    ((b.at .outgoing).text = "n2.output[0]" ∧
        ∀ x : Address, x.text = "n2.output[0]" → x = b.at .outgoing) ∧
      (g.Legible ∧ h.Legible ∧ g.textWith Node.text = h.textWith Node.text ∧ Lookalike g h) ∧
      g.peers .incoming c = [a, b] ∧ h.peers .incoming c = [b, a] ∧
      (g.peers .incoming c).Perm (h.peers .incoming c) := by
  intro a b c g h
  have haddress : (b.at .outgoing).text = "n2.output[0]" := by decide
  have hg : g.Legible := by decide
  have hh : h.Legible := by decide
  have htext : g.textWith Node.text = h.textWith Node.text := by decide +kernel
  have hlook : Lookalike g h := (texts_identify (φ := .multi)).2 g h hg hh htext
  exact ⟨⟨haddress, fun x hx => (texts_identify (φ := .multi)).1 x _ (hx.trans haddress.symm)⟩,
    ⟨hg, hh, htext, hlook⟩, by decide, by decide,
    hlook.perm_inputs (consistent_gathering _) (consistent_gathering _) c⟩

end Graph

end PortGraph
