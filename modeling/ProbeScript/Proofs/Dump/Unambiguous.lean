import ProbeScript.Proofs.Dump.Legible
import ProbeScript.Proofs.Dump.Rendering
import ProbeScript.Proofs.Number.Hexadecimal

/-!
# Proofs/Dump/Unambiguous — a line tells what is decided about its node

Behind the kind a note is taken apart at its blanks: neither the type nor the size has one in it
(`Note.texts_eq_of_details_eq`).  The type is the kind of its name, the first letter of a location
is that of its sort, and every number is written as the safe integer it is.  So two lines that are
the same show nodes of one kind with notes that agree, and what stands in front of the note is the
same too (`Ledger.line_unambiguous`).
-/

namespace ProbeScript

/-! ## Notes that agree -/

/-- Whether two values are one integer; a zero is one with either sign. -/
def Number.SameInteger (x y : Number) : Prop := ∃ i, x.IsInteger i ∧ y.IsInteger i

/-- Whether a location is of registers or addresses that are safe integers. -/
def Location.IsSafe : Location → Prop
  | nowhere | virtual => True
  | reg register => register.IsSafeInteger
  | stack address => address.IsSafeInteger

/-- Whether two locations are of one sort, with one register or address. -/
inductive Location.Agrees : Location → Location → Prop
  | nowhere : Agrees .nowhere .nowhere
  | virtual : Agrees .virtual .virtual
  | reg {x y : Number} (h : x.SameInteger y) : Agrees (.reg x) (.reg y)
  | stack {x y : Number} (h : x.SameInteger y) : Agrees (.stack x) (.stack y)

/-- Whether all numbers of a note are safe integers. -/
structure Note.IsSafe (a : Note) : Prop where
  size : a.size.IsSafeInteger
  location : a.location.IsSafe

/-- Whether the same is decided in two notes. -/
structure Note.Agrees (a b : Note) : Prop where
  type : a.type = b.type
  size : a.size.SameInteger b.size
  location : a.location.Agrees b.location

/-! ## Numbers -/

namespace Number

variable {x y : Number}

theorem sameInteger_of_hex_eq (hx : x.IsSafeInteger) (hy : y.IsSafeInteger) (h : x.hex = y.hex) :
    x.SameInteger y := by
  obtain ⟨i, hx, -⟩ := hx
  obtain ⟨j, hy, -⟩ := hy
  obtain rfl := eq_of_hex_eq hx hy h
  exact ⟨i, hx, hy⟩

theorem sameInteger_of_hex_neg_eq (hx : x.IsSafeInteger) (hy : y.IsSafeInteger)
    (h : (-x).hex = (-y).hex) : x.SameInteger y := by
  obtain ⟨i, hx, -⟩ := hx
  obtain ⟨j, hy, -⟩ := hy
  obtain rfl : i = j := Int.neg_inj.mp (eq_of_hex_eq hx.neg hy.neg h)
  exact ⟨i, hx, hy⟩

theorem sameInteger_of_text_eq (hx : x.IsSafeInteger) (hy : y.IsSafeInteger)
    (h : x.text = y.text) : x.SameInteger y := by
  obtain ⟨i, hx⟩ := isSafeInteger_iff.mp hx
  obtain ⟨j, hy⟩ := isSafeInteger_iff.mp hy
  obtain rfl := eq_of_text_eq hx hy h
  exact ⟨i, (safeInt?_eq_some_iff.mp hx).1, (safeInt?_eq_some_iff.mp hy).1⟩

end Number

/-! ## Locations -/

namespace Location

variable {l l' : Location}

/-- The sorts of location have different first letters. -/
theorem name_eq_of_head?_eq (h : l.name.toList.head? = l'.name.toList.head?) :
    l.name = l'.name := by
  have hnames (l : Location) : l.name ∈ ["nowhere", "virtual", "reg", "stack"] := by
    cases l <;> simp [name]
  have hall : ∀ s ∈ ["nowhere", "virtual", "reg", "stack"],
      ∀ t ∈ ["nowhere", "virtual", "reg", "stack"],
        s.toList.head? = t.toList.head? → s = t := by decide
  exact hall _ (hnames l) _ (hnames l') h

theorem name_suffix_inj (h : l.name ++ l.suffix = l'.name ++ l'.suffix) :
    l.name = l'.name ∧ l.suffix = l'.suffix := by
  have hhead (l : Location) : (l.name ++ l.suffix).toList.head? = l.name.toList.head? := by
    rw [String.toList_append]
    exact List.head?_append_of_ne_nil _ (by cases l <;> simp [name])
  have hname : l.name = l'.name := name_eq_of_head?_eq (by rw [← hhead, h, hhead])
  rw [hname] at h
  exact ⟨hname, (String.append_right_inj _).mp h⟩

/-- **A location is read back from its text.** -/
theorem agrees_of_text_eq (hl : l.IsSafe) (hl' : l'.IsSafe)
    (h : l.name ++ l.suffix = l'.name ++ l'.suffix) : l.Agrees l' := by
  obtain ⟨hname, hsuffix⟩ := name_suffix_inj h
  cases l <;> cases l'
  case nowhere.nowhere => exact .nowhere
  case virtual.virtual => exact .virtual
  case reg.reg x y =>
    exact .reg (Number.sameInteger_of_text_eq hl hl' ((String.append_right_inj "/").mp hsuffix))
  case stack.stack x y =>
    exact .stack
      (Number.sameInteger_of_hex_neg_eq hl hl' ((String.append_right_inj "/-0x").mp hsuffix))
  all_goals simp [name] at hname

end Location

/-! ## Notes -/

namespace Note

variable {a b : Note}

theorem ofName?_typeName (a : Note) : Kind.ofName? a.typeName = a.type := by
  rw [typeName]
  cases a.type with
  | none => decide
  | some kind => exact kind.ofName?_name

theorem toList_details (a : Note) :
    a.details.toList = a.typeName.toList ++ ' ' :: ("size:0x".toList ++ (a.size.hex.toList
      ++ ' ' :: ("loc:".toList ++ ((a.location.name ++ a.location.suffix).toList ++ [')'])))) := by
  simp only [details, String.toList_append, List.append_assoc]
  rfl

/-- **Details are taken apart at the blanks**, of which there is none in a type or a size. -/
theorem texts_eq_of_details_eq (h : a.details = b.details) :
    a.typeName = b.typeName ∧ a.size.hex = b.size.hex ∧
      a.location.name ++ a.location.suffix = b.location.name ++ b.location.suffix := by
  have hlist := congrArg String.toList h
  rw [toList_details, toList_details] at hlist
  have htype (a : Note) : ' ' ∉ a.typeName.toList := a.isNumeral_typeName.notMem (by decide)
  have hsize (a : Note) : ' ' ∉ a.size.hex.toList := a.size.isNumeral_hex.notMem (by decide)
  obtain ⟨htypes, hlist⟩ := append_cons_inj_of_notMem_left (htype a) (htype b) hlist
  obtain ⟨hsizes, hlist⟩ := append_cons_inj_of_notMem_left (hsize a) (hsize b)
    (List.append_cancel_left hlist)
  have hlocations := List.append_cancel_right (List.append_cancel_left hlist)
  exact ⟨String.toList_inj.mp htypes, String.toList_inj.mp hsizes,
    String.toList_inj.mp hlocations⟩

/-- **A note is read back from its details**, if its numbers are safe integers. -/
theorem agrees_of_details_eq (ha : a.IsSafe) (hb : b.IsSafe) (h : a.details = b.details) :
    a.Agrees b := by
  obtain ⟨htype, hsize, hlocation⟩ := texts_eq_of_details_eq h
  exact {
    type := by rw [← a.ofName?_typeName, htype, b.ofName?_typeName]
    size := Number.sameInteger_of_hex_eq ha.size hb.size hsize
    location := Location.agrees_of_text_eq ha.location hb.location hlocation }

end Note

/-! ## Lines -/

namespace Ledger

variable {ledger ledger' : Ledger} {f g : Forest} {m n : NodeId}

/-- **A line is unambiguous.**  Nodes with one line, whatever names are in it, are of one kind and
have one summary, and their notes agree in the type, the size, the sort of the location and the
register or address, as far as these are safe integers. -/
theorem line_unambiguous (hkind : f.kind m ≠ .stackValue) (ha : (ledger.shownNote m).IsSafe)
    (hb : (ledger'.shownNote n).IsSafe) (h : ledger.line f m = ledger'.line g n) :
    f.kind m = g.kind n ∧ (ledger.shownNote m).Agrees (ledger'.shownNote n) ∧
      ∃ summary, (f.shape m).summary = .ok summary ∧ (g.shape n).summary = .ok summary := by
  have hshape : f.shape m ≠ .stackValue := fun h => hkind (congrArg Shape.kind h)
  obtain ⟨text, hline⟩ := ledger.exists_line hshape
  obtain ⟨summary, hsummary, htext⟩ := exists_of_line_eq hline
  obtain ⟨summary', hsummary', htext'⟩ := exists_of_line_eq (h.symm.trans hline)
  obtain ⟨rfl, hkinds, hdetails⟩ := Note.eq_of_append_block_eq (htext.symm.trans htext')
  exact ⟨hkinds, Note.agrees_of_details_eq ha hb hdetails, summary, hsummary, hsummary'⟩

/-- Neither where the name of the module ends nor the sign of a zero shows, and the name of the
function looks like the note of an integer, but the notes agree all the same. -/
theorem line_unambiguous_of_calls :
    let f : Forest := ⟨#[{ shape := .call (some "a.b") "c (type:int/int size:0x8" none 0 }]⟩
    let g : Forest := ⟨#[{ shape := .call (some "a") "b.c (type:int/int size:0x8" none 0 }]⟩
    let note (size : Number) : Note := ⟨some .str, size, .stack (.ofInt 8)⟩
    let ledger (size : Number) : Ledger := ⟨#[{ note := note size }], [(0, 0)]⟩
    (ledger .negZero).line f 0 = (ledger (.ofInt 0)).line g 0 ∧ f.shape 0 ≠ g.shape 0 ∧
      f.kind 0 ≠ .stackValue ∧ (note .negZero).IsSafe ∧ (note (.ofInt 0)).IsSafe ∧
      note .negZero ≠ note (.ofInt 0) ∧ (note .negZero).Agrees (note (.ofInt 0)) := by
  intro f g note ledger
  have hline : (ledger .negZero).line f 0 = (ledger (.ofInt 0)).line g 0 := by decide +kernel
  have hkind : f.kind 0 ≠ .stackValue := by decide
  have haddress : (Number.ofInt 8).IsSafeInteger := ⟨8, .inl rfl, by decide⟩
  have hminus : ((ledger .negZero).shownNote 0).IsSafe :=
    ⟨⟨0, .inr ⟨rfl, rfl⟩, by decide⟩, haddress⟩
  have hplus : ((ledger (.ofInt 0)).shownNote 0).IsSafe := ⟨⟨0, .inl rfl, by decide⟩, haddress⟩
  obtain ⟨-, hagrees, -⟩ := line_unambiguous hkind hminus hplus hline
  exact ⟨hline, by decide, hkind, hminus, hplus, by decide, hagrees⟩

end Ledger

end ProbeScript
