import RowConfig.Proofs.Keys.Written
import RowConfig.Proofs.Linking.Faults

/-!
# Any string is a key

A string that is written as a literal in the key field of a row and one that is written in the
brackets of a reference take different ways: the first is read as a value, which is rendered when
rows are indexed, and the second is cut out of a call. For every string they meet. A reference holds
the last row that was written with its key, and if there is none, this is the fault of the document
(`reference_of_lines`).
-/

namespace RowConfig

open Linking Value

namespace Document

variable {d e : Document} {struct key k : String} {keys : List String} {t : Table} {spot : Spot}
  {element : Option Nat} {v : Value} {target : Option Instance}

/-- In the spot, alone or as an element of an array, stands the reference by the key; it holds the
last row of the struct that has this key. The rows of the struct have these keys. -/
def RefersToLast (d : Document) (struct key : String) (keys : List String) (k : String) (spot : Spot)
    (element : Option Nat) : Prop :=
  ∃ t i row v, d.table? struct = some t ∧ t.Keyed key keys ∧ LastAt keys k i ∧ t.rows[i]? = some row ∧
    d.at? spot = some v ∧ v.element? element = some (.reference struct k (some row))

/-- The document can be bound, and of the names that are reached none lies on a cycle and all but
perhaps this one find a row. -/
def FaultlessBut (d : Document) (name : RowName) : Prop :=
  ∃ bound, d.bind = .ok bound ∧ bound.buildIndexes.LinkedBut name

/-- In a document that is resolved nothing is wrong. -/
theorem faultlessBut_of_resolve (h : d.resolve = .ok e) (name : RowName) : d.FaultlessBut name := by
  obtain ⟨bound, linked, hbound, hlinked, -⟩ := resolve_eq_ok_iff.mp h
  refine ⟨bound, hbound, ?_⟩
  intro n hn
  obtain ⟨hfound, hacyclic⟩ := exists_link_iff.mp ⟨linked, hlinked⟩ n hn
  exact ⟨fun _ => hfound, hacyclic⟩

theorem refersToLast_of_resolve (hd : d.Written) (hdeclared : d.WellDeclared) (h : d.resolve = .ok e)
    (ht : d.table? struct = some t) (hkeyed : t.Keyed key keys) (hv : d.at? spot = some v)
    (hr : v.element? element = some (.reference struct k target)) :
    e.RefersToLast struct key keys k spot element := by
  have hkeyedBy : e.KeyedBy struct key keys := keyedBy_of_resolve hd hdeclared h ht hkeyed
  obtain ⟨w, row, hw, hreference, hrow⟩ := exists_reference_of_resolve hd hdeclared h hv hr
  obtain ⟨i, hi⟩ := exists_lastAt (hkeyedBy.mem_of_findRow hrow)
  obtain ⟨u, last, hu, hlast, hfound⟩ := hkeyedBy.findRow_of_lastAt hi
  -- what the key finds is the last row with it
  have heq : last = row := Except.ok.inj (hfound.symm.trans hrow)
  subst heq
  obtain ⟨u', hu', hkeyed', -⟩ := hkeyedBy
  rw [hu] at hu'
  cases hu'
  exact ⟨u, i, last, w, hu, hkeyed', hi, hlast, hw, hreference⟩

/-- With no other fault a document is resolved if some row has the key of the reference, and else
this key is its fault. -/
theorem resolve_of_faultlessBut (hd : d.Written) (hdeclared : d.WellDeclared)
    (h : d.FaultlessBut (struct, k)) (ht : d.table? struct = some t) (hkeyed : t.Keyed key keys)
    (hv : d.at? spot = some v) (hr : v.element? element = some (.reference struct k target)) :
    (k ∈ keys → ∃ e, d.resolve = .ok e) ∧
      (k ∉ keys → d.resolve = .error (.unknownKey struct k)) := by
  obtain ⟨bound, hbound, hlinked⟩ := h
  have hkeyedBy : bound.buildIndexes.KeyedBy struct key keys :=
    keyedBy_of_bind hd hdeclared hbound ht hkeyed
  constructor
  · intro hk
    obtain ⟨i, hi⟩ := exists_lastAt hk
    obtain ⟨_, row, -, -, hrow⟩ := hkeyedBy.findRow_of_lastAt hi
    obtain ⟨linked, hlink⟩ := hlinked.exists_link ⟨row, hrow⟩
    exact ⟨linked.render, resolve_eq_ok_iff.mpr ⟨bound, linked, hbound, hlink, rfl⟩⟩
  · intro hk
    obtain ⟨w, hw, hvw⟩ := exists_at?_of_bind hd hdeclared hbound hv
    rw [← at?_buildIndexes] at hw
    have hreaches : bound.buildIndexes.Reaches (struct, k) :=
      ⟨(struct, k), ⟨target, w, mem_roots_of_at? hw, holds_of_element? (element?_of_binds hvw hr)⟩,
        .refl⟩
    have hlink := hlinked.link_eq_error hreaches (hkeyedBy.findRow_of_not_mem hk)
    unfold resolve
    simp only [hbound, hlink]
    rfl

end Document

/-- Any string can serve as a key: if the rows of a struct are written with literals of the strings
`keys` as their keys, a reference by the literal of `k`, wherever it is written, holds the last row
with the key `k` once the document is compiled. If nothing else is wrong with the document, it
compiles when there is such a row, and otherwise the unknown key is its fault. -/
theorem reference_of_lines {s : Sources} {input : Input} {physical : List SourceLine}
    {lines : List LogicalLine} {d : Document} {struct key k : String} {keys : List String} {t : Table}
    {spot : Spot} {element : Option Nat} (hphysical : input.lines s = .ok physical)
    (hlines : assemble physical = .ok lines) (hd : Document.ofLines lines = .ok d)
    (ht : d.table? struct = some t) (hkey : t.key = some key)
    (hkeys : List.Forall₂ (WritesKey lines struct key) (rowPositions lines struct) keys)
    (hreference : WritesReference lines struct k element spot) :
    (∀ e, compile s input = .ok e → e.RefersToLast struct key keys k spot element) ∧
      (d.FaultlessBut (struct, k) →
        (k ∈ keys → ∃ e, compile s input = .ok e) ∧
          (k ∉ keys → compile s input = .error (.unknownKey struct k))) := by
  have hcompile : compile s input = d.resolve := by
    rw [compile, readDocument_eq_ok_iff.mpr ⟨physical, lines, hphysical, hlines, hd⟩]
  have hwritten := Document.written_of_ofLines hd
  have hdeclared := Document.wellDeclared_of_ofLines hd
  have hkeyed := Document.keyed_of_ofLines hd ht hkey hkeys
  obtain ⟨v, hv, hr⟩ := Document.exists_at?_of_ofLines hd hreference
  rw [hcompile]
  constructor
  · intro e he
    exact Document.refersToLast_of_resolve hwritten hdeclared he ht hkeyed hv hr
  · intro hfaultless
    exact Document.resolve_of_faultlessBut hwritten hdeclared hfaultless ht hkeyed hv hr

end RowConfig
