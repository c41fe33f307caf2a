import OmegaCheck.Dot
import OmegaCheck.Proofs.Bindings
import OmegaCheck.Proofs.Store
import Mathlib.Data.List.Nodup

/-!
# Diagrams show what they were drawn from

The text of a diagram is a sequence of statements, and every name in it stands between quotes with
its own quotes and backslashes escaped. Whatever the names are, the statements can be read off the
text one by one, so that two systems have the same diagram exactly when they have the same drawing:
name, nodes in the order of their literals, and edges between the numbers of the nodes.
-/

namespace OmegaCheck.Dot

section Escaping

variable {s t : String} {cs rest rest' : List Char}

def escapeChar (c : Char) : List Char :=
  if c = '\\' then ['\\', '\\'] else if c = '"' then ['\\', '"'] else [c]

/-- Both replacements can be made in one pass: the first writes no quotes. -/
theorem toList_escape (s : String) : (escape s).toList = s.toList.flatMap escapeChar := by
  simp only [escape, replaced, String.toList_ofList, List.flatMap_assoc]
  congr 1
  funext c
  by_cases hbackslash : c = '\\'
  · subst hbackslash
    rfl
  · simp [escapeChar, hbackslash]

theorem escapeChar_cases (c : Char) :
    (c = '\\' ∨ c = '"') ∧ escapeChar c = ['\\', c] ∨
      (c ≠ '\\' ∧ c ≠ '"') ∧ escapeChar c = [c] := by
  by_cases hbackslash : c = '\\'
  · exact .inl ⟨.inl hbackslash, by simp [escapeChar, hbackslash]⟩
  · by_cases hquote : c = '"'
    · exact .inl ⟨.inr hquote, by simp [escapeChar, hquote]⟩
    · exact .inr ⟨⟨hbackslash, hquote⟩, by simp [escapeChar, hbackslash, hquote]⟩

/-- An escaped text read back, with what follows it. Escaping writes no lone quote, and a backslash
only in front of a quote or another backslash. -/
def unescape : List Char → List Char × List Char
  | '\\' :: '\\' :: cs => ('\\' :: (unescape cs).1, (unescape cs).2)
  | '\\' :: '"' :: cs => ('"' :: (unescape cs).1, (unescape cs).2)
  | '\\' :: cs => ([], '\\' :: cs)
  | '"' :: cs => ([], '"' :: cs)
  | c :: cs => (c :: (unescape cs).1, (unescape cs).2)
  | [] => ([], [])

theorem unescape_append (cs rest : List Char) :
    unescape (cs.flatMap escapeChar ++ rest) = (cs ++ (unescape rest).1, (unescape rest).2) := by
  induction cs with
  | nil => rfl
  | cons c cs ih =>
    rw [List.flatMap_cons, List.append_assoc]
    rcases escapeChar_cases c with ⟨rfl | rfl, hescape⟩ | ⟨⟨hbackslash, hquote⟩, hescape⟩
    · simp [hescape, unescape, ih]
    · simp [hescape, unescape, ih]
    · rw [hescape, List.singleton_append, unescape, ih, List.cons_append]
      all_goals simp_all

/-- Where an escaped text ends is found if both go on alike up to where escaping could not. -/
theorem escape_append_inj {front back back' : List Char} (hrest : unescape rest = (front, back))
    (hrest' : unescape rest' = (front, back'))
    (h : (escape s).toList ++ rest = (escape t).toList ++ rest') : s = t ∧ back = back' := by
  have hread := congrArg unescape h
  rw [toList_escape, toList_escape, unescape_append, unescape_append, hrest, hrest',
    Prod.mk.injEq, List.append_cancel_right_eq] at hread
  exact hread.imp_left fun hchars => String.toList_injective hchars

theorem unescape_quote (rest : List Char) : unescape ('"' :: rest) = ([], '"' :: rest) := rfl

theorem unescape_brace (rest : List Char) :
    unescape ('\x7d' :: '"' :: rest) = (['\x7d'], '"' :: rest) := by
  simp [unescape]

theorem unescape_newline (rest : List Char) :
    unescape ('\\' :: 'n' :: rest) = ([], '\\' :: 'n' :: rest) := by
  simp [unescape]

mutual
/-- The quoted parts of a text, as they stand between their quotes. A quote behind a backslash does
not end its part. -/
def quotedParts : List Char → List (List Char)
  | [] => []
  | '"' :: cs => quotedPartsFrom [] cs
  | _ :: cs => quotedParts cs

/-- The quoted parts of a text that begins inside a part, of which `front` is known. -/
def quotedPartsFrom (front : List Char) : List Char → List (List Char)
  | [] => []
  | '"' :: cs => front :: quotedParts cs
  | '\\' :: c :: cs => quotedPartsFrom (front ++ ['\\', c]) cs
  | c :: cs => quotedPartsFrom (front ++ [c]) cs
end

theorem quotedParts_append (h : '"' ∉ cs) (rest : List Char) :
    quotedParts (cs ++ rest) = quotedParts rest := by
  induction cs with
  | nil => rfl
  | cons c cs ih =>
    rw [List.mem_cons, not_or] at h
    rw [List.cons_append, quotedParts, ih h.2]
    rintro rfl
    exact h.1 rfl

theorem quotedPartsFrom_escape (front : List Char) (s : String) (rest : List Char) :
    quotedPartsFrom front ((escape s).toList ++ rest) =
      quotedPartsFrom (front ++ (escape s).toList) rest := by
  rw [toList_escape]
  generalize s.toList = cs
  induction cs generalizing front with
  | nil => simp
  | cons c cs ih =>
    rw [List.flatMap_cons, List.append_assoc]
    rcases escapeChar_cases c with ⟨_, hescape⟩ | ⟨⟨hbackslash, hquote⟩, hescape⟩
    · simp [hescape, quotedPartsFrom, ih]
    · rw [hescape, List.singleton_append, quotedPartsFrom, ih]
      · simp
      · simpa using hquote
      · simp [hbackslash]

end Escaping

/-- A statement of a diagram. -/
inductive Statement where
  | title (text : String)
  | shapes
  | node (i : Nat) (isInitial : Bool) (name label : String)
  | edge (i j : Nat) (action : String)

/-- What is written between the quotes of a node. -/
def nodeLabel (name label : String) : String :=
  escape name ++ "\\n\x7b" ++ escape label ++ "\x7d"

namespace Statement

def text : Statement → String
  | title t => "label=\"" ++ escape t ++ "\";\n"
  | shapes => "node [shape=ellipse];\n"
  | node i isInitial name label => nodeText {} isInitial i (nodeLabel name label)
  | edge i j action => edgeText {} i j action

/-- What a statement puts between quotes. -/
def quotes : Statement → List String
  | title t => [escape t]
  | shapes => []
  | node _ _ name label => [nodeLabel name label]
  | edge _ _ action => [escape action]

/-- How a node goes on behind its number, which it names again if it is initial. -/
def nodeTail (i : Nat) (isInitial : Bool) (name label : String) : List Char :=
  (if isInitial then "shape=doublecircle, ".toList else []) ++ "label=\"".toList ++
    (escape name).toList ++ '\\' :: 'n' :: '\x7b' :: (escape label).toList ++ '\x7d' :: '"' ::
      ("];\n".toList ++
        if isInitial then
          "init".toList ++ i.repr.toList ++ " [shape=point, style=invis];\ninit".toList ++
            i.repr.toList ++ " -> s".toList ++ i.repr.toList ++ ";\n".toList
        else [])

theorem toList_text_node (i : Nat) (isInitial : Bool) (name label : String) :
    (node i isInitial name label).text.toList =
      's' :: (i.repr.toList ++ ' ' :: '[' :: nodeTail i isInitial name label) := by
  cases isInitial with
  | false => simp [text, nodeText, nodeLabel, nodeTail]
  | true => simp [text, nodeText, nodeLabel, nodeTail]

theorem toList_text_edge (i j : Nat) (action : String) :
    (edge i j action).text.toList =
      's' :: (i.repr.toList ++ ' ' :: '-' :: '>' :: ' ' :: 's' ::
        (j.repr.toList ++ ' ' :: ("[label=\"".toList ++ (escape action).toList ++ '"' ::
          "];\n".toList))) := by
  simp [text, edgeText]

section Reading

variable {s t : Statement} {rest rest' : List Char}

theorem repr_append_inj {i j : Nat}
    (h : i.repr.toList ++ ' ' :: rest = j.repr.toList ++ ' ' :: rest') : i = j ∧ rest = rest' := by
  have hblank (n : Nat) : n.repr.toList.count ' ' = 0 :=
    List.count_eq_zero_of_not_mem (not_mem_repr (by decide) n)
  obtain ⟨hdigits, hrest⟩ := Text.append_cons_inj_of_count_eq h ((hblank i).trans (hblank j).symm)
  exact ⟨Text.repr_injective (String.toList_injective hdigits), hrest⟩

theorem nodeTail_append_inj {i : Nat} {b c : Bool} {name label name' label' : String}
    (h : nodeTail i b name label ++ rest = nodeTail i c name' label' ++ rest') :
    b = c ∧ name = name' ∧ label = label' ∧ rest = rest' := by
  have hsame : b = c := by
    cases b <;> cases c <;> simp [nodeTail] at h ⊢
  subst hsame
  simp only [nodeTail, List.append_assoc, List.append_cancel_left_eq, List.cons_append] at h
  obtain ⟨hname, h⟩ := escape_append_inj (unescape_newline _) (unescape_newline _) h
  simp only [List.cons.injEq, true_and] at h
  obtain ⟨hlabel, h⟩ := escape_append_inj (unescape_brace _) (unescape_brace _) h
  simp only [List.cons.injEq, true_and, List.append_cancel_left_eq] at h
  exact ⟨rfl, hname, hlabel, h⟩

def lead : Statement → Char
  | title _ => 'l'
  | shapes => 'n'
  | node .. | edge .. => 's'

theorem head?_text_append (s : Statement) (rest : List Char) :
    (s.text.toList ++ rest).head? = some s.lead := by
  cases s with
  | title text => simp [Statement.text, lead]
  | shapes => simp [Statement.text, lead]
  | node i b name label =>
    rw [toList_text_node]
    rfl
  | edge i j action =>
    rw [toList_text_edge]
    rfl

/-- A statement is read off the text that begins with it. -/
theorem append_inj (h : s.text.toList ++ rest = t.text.toList ++ rest') : s = t ∧ rest = rest' := by
  have hlead : s.lead = t.lead := by
    have hhead := congrArg List.head? h
    rwa [head?_text_append, head?_text_append, Option.some.injEq] at hhead
  cases s with
  | title u =>
    cases t with
    | title v =>
      simp only [text, String.toList_append, List.append_assoc, List.append_cancel_left_eq] at h
      obtain ⟨rfl, hrest⟩ := escape_append_inj (unescape_quote _) (unescape_quote _) h
      exact ⟨rfl, by simpa using hrest⟩
    | _ => simp [lead] at hlead
  | shapes =>
    cases t with
    | shapes => exact ⟨rfl, List.append_cancel_left h⟩
    | _ => simp [lead] at hlead
  | node i b name label =>
    cases t with
    | node i' b' name' label' =>
      simp only [toList_text_node, List.cons_append, List.append_assoc, List.cons.injEq,
        true_and] at h
      obtain ⟨rfl, htail⟩ := repr_append_inj h
      obtain ⟨rfl, rfl, rfl, rfl⟩ := nodeTail_append_inj (List.cons.inj htail).2
      exact ⟨rfl, rfl⟩
    | edge i' j' action =>
      simp only [toList_text_node, toList_text_edge, List.cons_append, List.append_assoc,
        List.cons.injEq, true_and] at h
      simpa using (repr_append_inj h).2
    | _ => simp [lead] at hlead
  | edge i j action =>
    cases t with
    | node i' b' name' label' =>
      simp only [toList_text_node, toList_text_edge, List.cons_append, List.append_assoc,
        List.cons.injEq, true_and] at h
      simpa using (repr_append_inj h).2
    | edge i' j' action' =>
      simp only [toList_text_edge, List.cons_append, List.append_assoc, List.cons.injEq,
        true_and] at h
      obtain ⟨rfl, hsource⟩ := repr_append_inj h
      simp only [List.cons.injEq, true_and] at hsource
      obtain ⟨rfl, htarget⟩ := repr_append_inj hsource
      rw [List.append_cancel_left_eq] at htarget
      obtain ⟨rfl, hrest⟩ := escape_append_inj (unescape_quote _) (unescape_quote _) htarget
      exact ⟨rfl, by simpa using hrest⟩
    | _ => simp [lead] at hlead

/-- Statements in front of a closing brace are read off their text. -/
theorem flatMap_text_inj {l l' : List Statement}
    (h : l.flatMap (fun s => s.text.toList) ++ '\x7d' :: rest =
      l'.flatMap (fun s => s.text.toList) ++ '\x7d' :: rest') : l = l' := by
  have hend (s : Statement) (rest back : List Char) :
      s.text.toList ++ rest ≠ '\x7d' :: back := by
    intro heq
    have hhead := congrArg List.head? heq
    rw [head?_text_append] at hhead
    cases s <;> simp [lead] at hhead
  induction l generalizing l' with
  | nil =>
    cases l' with
    | nil => rfl
    | cons t l' =>
      rw [List.flatMap_cons, List.append_assoc] at h
      exact absurd h.symm (hend t _ _)
  | cons s l ih =>
    cases l' with
    | nil =>
      rw [List.flatMap_cons, List.append_assoc] at h
      exact absurd h (hend s _ _)
    | cons t l' =>
      rw [List.flatMap_cons, List.flatMap_cons, List.append_assoc, List.append_assoc] at h
      obtain ⟨rfl, hrest⟩ := append_inj h
      rw [ih hrest]

theorem quotedParts_text_append (s : Statement) (rest : List Char) :
    quotedParts (s.text.toList ++ rest) = s.quotes.map String.toList ++ quotedParts rest := by
  have hdigits (n : Nat) (rest : List Char) :
      quotedParts (Nat.toDigits 10 n ++ rest) = quotedParts rest := by
    rw [← Nat.toList_repr]
    exact quotedParts_append (not_mem_repr (by decide) n) rest
  cases s with
  | title t => simp [text, quotes, quotedParts, quotedPartsFrom_escape, quotedPartsFrom]
  | shapes => simp [text, quotes, quotedParts]
  | node i b name label =>
    rw [toList_text_node]
    cases b with
    | false =>
      simp [nodeTail, nodeLabel, quotes, quotedParts, quotedPartsFrom_escape, quotedPartsFrom,
        hdigits]
    | true =>
      simp [nodeTail, nodeLabel, quotes, quotedParts, quotedPartsFrom_escape, quotedPartsFrom,
        hdigits]
  | edge i j action =>
    rw [toList_text_edge]
    simp [quotes, quotedParts, quotedPartsFrom_escape, quotedPartsFrom, hdigits]

end Reading

end Statement

/-- What a diagram shows: nodes with their texts and labels, and edges between their numbers. -/
structure Drawing where
  name : Option String
  nodes : List (String × Bool × String)
  edges : List (Nat × Nat × String)

namespace Drawing

def statements (d : Drawing) : List Statement :=
  d.name.toList.map .title ++ .shapes ::
    ((d.nodes.zipIdx.map fun x => .node x.2 x.1.2.1 x.1.1 x.1.2.2) ++
      d.edges.map fun e => .edge e.1 e.2.1 e.2.2)

def text (d : Drawing) : String :=
  "digraph \x7b\n" ++ String.join (d.statements.map Statement.text) ++ "\x7d\n"

theorem toList_text (d : Drawing) :
    d.text.toList = "digraph \x7b\n".toList ++ (d.statements.flatMap fun s => s.text.toList) ++
      ['\x7d', '\n'] := by
  simp [text, String.toList_join, List.flatMap_map]

def ofStatements (l : List Statement) : Drawing where
  name := (l.filterMap fun | .title t => some t | _ => none).head?
  nodes := l.filterMap fun
    | .node _ isInitial name label => some (name, isInitial, label)
    | _ => none
  edges := l.filterMap fun | .edge i j action => some (i, j, action) | _ => none

theorem ofStatements_statements (d : Drawing) : ofStatements d.statements = d := by
  obtain ⟨name, nodes, edges⟩ := d
  cases name with
  | none => simp [ofStatements, statements, List.filterMap_map]
  | some t => simp [ofStatements, statements, List.filterMap_map]

/-- The text shows the whole drawing, whatever the names in it are. -/
theorem text_injective {d e : Drawing} (h : d.text = e.text) : d = e := by
  have hchars := congrArg String.toList h
  rw [toList_text, toList_text, List.append_assoc, List.append_assoc,
    List.append_cancel_left_eq] at hchars
  rw [← ofStatements_statements d, Statement.flatMap_text_inj hchars, ofStatements_statements]

theorem quotedParts_text (d : Drawing) :
    quotedParts d.text.toList = (d.statements.flatMap Statement.quotes).map String.toList := by
  have hstatements (l : List Statement) :
      quotedParts ((l.flatMap fun s => s.text.toList) ++ ['\x7d', '\n']) =
        (l.flatMap Statement.quotes).map String.toList := by
    induction l with
    | nil => simp [quotedParts]
    | cons s l ih =>
      rw [List.flatMap_cons, List.append_assoc, Statement.quotedParts_text_append, ih,
        List.flatMap_cons, List.map_append]
  rw [toList_text, List.append_assoc, quotedParts_append (by simp), hstatements]

end Drawing

section Sorting

variable {α β γ : Type}

/-- A list in the order of its keys. -/
def sortedBy [Element β] (key : α → β) (l : List α) : List α :=
  l.mergeSort fun a b => (compare (key a) (key b)).isLE

/-- A list with the same entries in the order of their keys is the sorted list, if equal keys have
equal entries. -/
theorem eq_sortedBy [Element β] {key : α → β} {l l' : List α} (hperm : l'.Perm l)
    (hsorted : l'.Pairwise fun a b => (compare (key a) (key b)).isLE)
    (hkey : ∀ a ∈ l, ∀ b ∈ l, key a = key b → a = b) : l' = sortedBy key l := by
  have hmerge := List.mergeSort_perm l fun a b => (compare (key a) (key b)).isLE
  apply List.Perm.eq_of_pairwise _ hsorted _ (hperm.trans hmerge.symm)
  · intro a b ha hb hab hba
    apply hkey a (hperm.mem_iff.mp ha) b (hmerge.mem_iff.mp hb)
    exact Element.compare_eq_iff.mp (Std.OrientedCmp.isLE_antisymm hab hba)
  · apply List.pairwise_mergeSort
    · intro a b c
      exact Std.TransOrd.isLE_trans
    · intro a b
      rw [Std.OrientedOrd.eq_swap (a := key b)]
      cases compare (key a) (key b) <;> rfl

variable [Element α] [Element β]

theorem perm_ordered (key : α → β) (s : FinSet α) : (ordered key s).Perm s.toList := by
  have hkeys : (s.image fun a => (key a, a)).toList.Perm (s.toList.map fun a => (key a, a)) := by
    rw [List.perm_ext_iff_of_nodup (FinSet.toList_nodup _)]
    · simp
    · exact s.toList_nodup.map fun a b h => (Prod.mk.inj h).2
  rw [ordered]
  simpa [Function.comp_def] using hkeys.map Prod.snd

theorem pairwise_ordered (key : α → β) (s : FinSet α) :
    (ordered key s).Pairwise fun a b => (compare (key a) (key b)).isLE := by
  rw [ordered, List.pairwise_map]
  refine (FinSet.toList_sorted _).imp_of_mem fun {x y} hx hy hlt => ?_
  obtain ⟨a, -, rfl⟩ := FinSet.mem_image.mp (FinSet.mem_toList.mp hx)
  obtain ⟨b, -, rfl⟩ := FinSet.mem_image.mp (FinSet.mem_toList.mp hy)
  have hthen : (compare (key a) (key b)).then (compare a b) = .lt := hlt
  cases hcompare : compare (key a) (key b) with
  | gt => simp [hcompare] at hthen
  | _ => rfl

theorem map_ordered (key : α → β) (s : FinSet α) (f : α → γ) (key' : γ → β)
    (hf : ∀ a, key' (f a) = key a)
    (hkey : ∀ a ∈ s, ∀ b ∈ s, key a = key b → f a = f b) :
    (ordered key s).map f = sortedBy key' (s.toList.map f) := by
  apply eq_sortedBy
  · exact (perm_ordered key s).map f
  · rw [List.pairwise_map]
    simpa [hf] using pairwise_ordered key s
  · simpa [hf] using hkey

theorem map_image_keyed (key : α → β) (s : FinSet α) (f : β → γ) :
    (s.image fun a => (key a, a)).toList.map (fun x => f x.1) =
      (sortedBy id (s.toList.map key)).map f := by
  have hsorted : (ordered key s).map key = sortedBy id (s.toList.map key) :=
    map_ordered key s key id (fun _ => rfl) fun _ _ _ _ h => h
  rw [← hsorted, ordered, List.map_map, List.map_map]
  apply List.map_congr_left
  intro x hx
  obtain ⟨a, -, rfl⟩ := FinSet.mem_image.mp (FinSet.mem_toList.mp hx)
  rfl

end Sorting

section Numbers

variable {α : Type} [Element α]

theorem get?_foldl_insert {β : Type} {l : List (α × β)} (hnodup : (l.map Prod.fst).Nodup) {a : α}
    {b : β} (m : FinMap α β) (h : (a, b) ∈ l ∨ a ∉ l.map Prod.fst ∧ m.get? a = some b) :
    (l.foldl (fun m x => m.insert x.1 x.2) m).get? a = some b := by
  induction l generalizing m with
  | nil => simpa using h
  | cons x l ih =>
    rw [List.map_cons, List.nodup_cons] at hnodup
    apply ih hnodup.2
    rw [FinMap.get?_insert]
    rcases h with h | ⟨hmem, hget⟩
    · rcases List.mem_cons.mp h with rfl | h
      · exact .inr ⟨hnodup.1, by simp⟩
      · exact .inl h
    · rw [List.map_cons, List.mem_cons, not_or] at hmem
      exact .inr ⟨hmem.2, by rw [if_neg hmem.1, hget]⟩

theorem get?_numbering {nodes : List α} (hnodup : nodes.Nodup) {a : α} {i : Nat}
    (h : nodes[i]? = some a) : (numbering nodes).get? a = some i := by
  apply get?_foldl_insert
  · simpa using hnodup
  · rw [List.mem_zipIdx_iff_getElem?]
    exact .inl h

end Numbers

end OmegaCheck.Dot

namespace OmegaCheck

theorem FinMap.values_group {κ β : Type} [Element κ] (l : List (κ × β)) (k : κ) :
    (FinMap.group l).values k = l.filterMap fun b => if b.1 = k then some b.2 else none := by
  induction l with
  | nil => simp [group, values]
  | cons b l ih =>
    have h : group (b :: l) = (group l).insert b.1 (b.2 :: ((group l).get? b.1).getD []) := rfl
    rw [values, h, get?_insert, List.filterMap_cons]
    by_cases heq : k = b.1
    · subst heq
      simp [← ih, values]
    · simp [heq, Ne.symm heq, ← ih, values]

theorem FinSet.toList_ofList {α : Type} [Element α] {l : List α}
    (h : l.Pairwise fun a b => compare a b = .lt) : (ofList l).toList = l := by
  have hnodup : l.Nodup := h.imp fun hlt heq => by
    rw [Element.compare_eq_iff.mpr heq] at hlt
    cases hlt
  apply List.Perm.eq_of_pairwise _ (toList_sorted _) h
  · rw [List.perm_ext_iff_of_nodup (toList_nodup _) hnodup]
    simp
  · intro a b _ _ hab hba
    rw [Std.OrientedOrd.eq_swap, hab] at hba
    cases hba

theorem FinSet.filterMap_eq_image {α β : Type} [Element α] [Element β] {s : FinSet α}
    {f : α → Option β} {g : α → β} (h : ∀ a ∈ s, f a = some (g a)) :
    s.filterMap f = s.image g := by
  apply FinSet.ext
  intro b
  rw [mem_filterMap, mem_image]
  exact exists_congr fun a => and_congr_right fun ha => by rw [h a ha, Option.some.injEq]

namespace TransitionSystem

open Dot

variable {S A P : Type} [Element S] [Element A] [Element P]

theorem values_labelTable (ts : TransitionSystem S A P) (s : S) :
    ts.labelTable.values s = (ts.labelOf s).toList := by
  rw [labelTable, FinMap.values_group, labelOf, FinSet.filterMap, FinSet.toList_ofList]
  refine (FinSet.toList_sorted _).filterMap _ fun x y hlt p hp q hq => ?_
  obtain ⟨rfl, rfl⟩ : x.1 = s ∧ x.2 = p := by simpa using hp
  obtain ⟨heq, rfl⟩ : y.1 = x.1 ∧ y.2 = q := by simpa using hq
  have hthen : (compare x.1 y.1).then (compare x.2 y.2) = .lt := hlt
  rwa [heq, Element.compare_eq_iff.mpr rfl] at hthen

variable [Literal S] [Literal P]

/-- What a diagram shows of a state: its literal, whether it is initial, and its label. -/
def drawnState (ts : TransitionSystem S A P) (s : S) : String × Bool × String :=
  (literal s, s ∈ ts.initial, Text.separated ", " ((ts.labelOf s).toList.map literal))

/-- The states in the order of their literals. -/
def drawnStates (ts : TransitionSystem S A P) : List (String × Bool × String) :=
  sortedBy Prod.fst (ts.states.toList.map ts.drawnState)

def place (ts : TransitionSystem S A P) (s : S) : Nat :=
  ts.drawnStates.findIdx fun x => x.1 = literal s

def drawing (actionText : A → String) (ts : TransitionSystem S A P) : Drawing where
  name := ts.name
  nodes := ts.drawnStates
  edges := sortedBy id (ts.transitions.toList.map fun t =>
    (ts.place t.source, ts.place t.target, actionText t.action))

section Drawn

variable {ts : TransitionSystem S A P}
  (hliteral : ∀ s ∈ ts.states, ∀ t ∈ ts.states, literal s = literal t → s = t)
include hliteral

theorem map_drawnState_ordered :
    (ordered literal ts.states).map ts.drawnState = ts.drawnStates := by
  apply map_ordered literal ts.states ts.drawnState Prod.fst (fun _ => rfl)
  intro s hs t ht h
  rw [hliteral s hs t ht h]

theorem get?_numbering_ordered {s : S} (hs : s ∈ ts.states) :
    (numbering (ordered literal ts.states)).get? s = some (ts.place s) := by
  have hperm : (ordered literal ts.states).Perm ts.states.toList := perm_ordered literal ts.states
  apply get?_numbering (hperm.nodup_iff.mpr ts.states.toList_nodup)
  have hlt : (ordered literal ts.states).findIdx (fun t => literal t = literal s) <
      (ordered literal ts.states).length :=
    List.findIdx_lt_length_of_exists ⟨s, hperm.mem_iff.mpr (FinSet.mem_toList.mpr hs), by simp⟩
  rw [place, ← map_drawnState_ordered hliteral, List.findIdx_map]
  have hfound := List.findIdx_getElem (w := hlt)
  have hmem := FinSet.mem_toList.mp (hperm.mem_iff.mp (List.getElem_mem hlt))
  exact (List.getElem?_eq_getElem hlt).trans
    (congrArg some (hliteral _ hmem s hs (of_decide_eq_true hfound)))

theorem edgesText_drawing (hts : ts.WellFormed) (actionText : A → String) :
    edgesText {} ts.transitions
        (fun t => do
          return (← (numbering (ordered literal ts.states)).get? t.source,
            ← (numbering (ordered literal ts.states)).get? t.target))
        (fun t => actionText t.action) =
      String.join ((ts.drawing actionText).edges.map fun e => edgeText {} e.1 e.2.1 e.2.2) := by
  let key (t : Transition S A) : Nat × Nat × String :=
    (ts.place t.source, ts.place t.target, actionText t.action)
  have hends : ∀ t ∈ ts.transitions,
      ((do
        return (← (numbering (ordered literal ts.states)).get? t.source,
          ← (numbering (ordered literal ts.states)).get? t.target)) : Option (Nat × Nat)).map
        (fun x => ((x.1, x.2, actionText t.action), t)) = some (key t, t) := by
    intro t ht
    rw [get?_numbering_ordered hliteral (hts.source t ht),
      get?_numbering_ordered hliteral (hts.target t ht)]
    rfl
  have hlisted := map_image_keyed key ts.transitions fun e => edgeText {} e.1 e.2.1 e.2.2
  rw [edgesText, FinSet.filterMap_eq_image hends, hlisted]
  rfl

theorem nodesText_drawing (actionText : A → String) :
    ((ordered literal ts.states).zipIdx.map fun x =>
        nodeText {} (x.1 ∈ ts.initial) x.2 (escape (literal x.1) ++ ("\\n\x7b" ++
          escape (Text.separated ", " ((ts.labelTable.values x.1).map literal)) ++ "\x7d"))) =
      (ts.drawing actionText).nodes.zipIdx.map fun x =>
        (Statement.node x.2 x.1.2.1 x.1.1 x.1.2.2).text := by
  rw [drawing, ← map_drawnState_ordered hliteral, List.zipIdx_map, List.map_map]
  simp [values_labelTable, drawnState, Statement.text, nodeLabel, String.append_assoc]

theorem dot_eq_text_drawing (hts : ts.WellFormed) (actionText : A → String) :
    ts.dot {} actionText = (ts.drawing actionText).text := by
  rw [dot, edgesText_drawing hliteral hts actionText]
  simp only [if_true, nodesText_drawing hliteral actionText]
  apply String.toList_injective
  rw [Drawing.toList_text]
  -- Opened as it stands: to derive its equations the texts in it would be compared by evaluation.
  delta graphText
  have hname : (ts.drawing actionText).name = ts.name := rfl
  cases htitle : ts.name with
  | none =>
    simp [Drawing.statements, hname, htitle, String.toList_join, List.flatMap_map, Statement.text]
  | some t =>
    simp [Drawing.statements, hname, htitle, String.toList_join, List.flatMap_map, Statement.text]

end Drawn

/-- Two systems have the same diagram exactly when there is the same to draw: their name, their
states by literal with initial states and labels told apart, and their transitions by the places of
the ends and the text of the action, as often as there are such transitions. Each quote that ends a
part of the text is the one that was written to end it. -/
theorem dot_eq_dot_iff_drawing_eq {S' A' P' : Type} [Element S'] [Element A'] [Element P']
    [Literal S'] [Literal P'] {ts : TransitionSystem S A P} {us : TransitionSystem S' A' P'}
    (hts : ts.Built) (hus : us.Built)
    (hstates : ∀ s ∈ ts.states, ∀ t ∈ ts.states, literal s = literal t → s = t)
    (hstates' : ∀ s ∈ us.states, ∀ t ∈ us.states, literal s = literal t → s = t)
    (actionText : A → String) (actionText' : A' → String) :
    (ts.dot {} actionText = us.dot {} actionText' ↔
      ts.drawing actionText = us.drawing actionText') ∧
      quotedParts (ts.dot {} actionText).toList =
        ((ts.drawing actionText).statements.flatMap Statement.quotes).map String.toList := by
  rw [dot_eq_text_drawing hstates hts.wellFormed, dot_eq_text_drawing hstates' hus.wellFormed]
  exact ⟨⟨Drawing.text_injective, congrArg Drawing.text⟩, Drawing.quotedParts_text _⟩

/-- One loop, with an action that reads like the text between two loops. -/
def forging : TransitionSystem Nat String Nat :=
  ofChanges [.setName "\\", .addState 0, .addAction "a\"];\ns0 -> s0 [label=\"b",
    .addTransition ⟨0, "a\"];\ns0 -> s0 [label=\"b", 0⟩]

def looping : TransitionSystem Nat String Nat :=
  ofChanges [.setName "\\", .addState 0, .addActions ["a", "b"], .addTransition ⟨0, "a", 0⟩,
    .addTransition ⟨0, "b", 0⟩]

theorem dot_forging_ne_dot_looping :
    forging.Built ∧ looping.Built ∧ (∀ s t : Nat, literal s = literal t → s = t) ∧
      forging.dot {} id ≠ looping.dot {} id := by
  have hliteral (s t : Nat) (h : literal s = literal t) : s = t :=
    Int.ofNat.inj (Text.decimal_injective h)
  refine ⟨⟨_, rfl⟩, ⟨_, rfl⟩, hliteral, ?_⟩
  have hdiagram := dot_eq_dot_iff_drawing_eq (show forging.Built from ⟨_, rfl⟩)
    (show looping.Built from ⟨_, rfl⟩) (fun s _ t _ => hliteral s t) (fun s _ t _ => hliteral s t)
    id id
  rw [Ne, hdiagram.1]
  intro h
  have hedges := congrArg (fun d => d.edges.length) h
  simp only [drawing, sortedBy, List.length_mergeSort, List.length_map, FinSet.length_toList]
    at hedges
  exact absurd hedges (by decide)

end TransitionSystem

end OmegaCheck
