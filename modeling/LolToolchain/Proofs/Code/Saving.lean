import LolToolchain.Proofs.Code.Reuse
import LolToolchain.Text.CommonNames

/-!
Every program that is compiled can be stored and read back, whatever the bytes of its source text.
The lexer turns bytes that are no text into characters, and the places of a string literal in order;
the compiler adds nothing that a stored chunk may not have.
-/
namespace LolToolchain

namespace Template

/-- Places in order, within the text. -/
structure Ordered (t : Template) : Prop where
  sorted : t.offsets.Pairwise (· ≤ ·)
  within : ∀ off ∈ t.offsets, 0 ≤ off ∧ off ≤ t.text.length

private theorem misplacedFrom_eq_none {size : Nat} {previous : Int} {offs : List Int}
    (h : misplacedFrom size previous offs = none) :
    (previous :: offs).Pairwise (· ≤ ·) ∧ ∀ off ∈ offs, off ≤ size := by
  induction offs generalizing previous with
  | nil => exact ⟨List.pairwise_singleton _ _, nofun⟩
  | cons off offs ih =>
    rw [misplacedFrom] at h
    split at h
    · cases h
    next hplace =>
      obtain ⟨hsorted, hwithin⟩ := ih h
      have hle : previous ≤ off := by omega
      refine ⟨List.pairwise_cons.2 ⟨List.forall_mem_cons.2 ⟨hle, fun o ho => ?_⟩, hsorted⟩,
        List.forall_mem_cons.2 ⟨by omega, hwithin⟩⟩
      exact Int.le_trans hle ((List.pairwise_cons.1 hsorted).1 o ho)

theorem Ordered.of_misplaced? {t : Template} (h : t.misplaced? = none) : t.Ordered := by
  obtain ⟨hsorted, hwithin⟩ := misplacedFrom_eq_none h
  obtain ⟨hfirst, hsorted⟩ := List.pairwise_cons.1 hsorted
  exact ⟨hsorted, fun off hoff => ⟨hfirst off hoff, hwithin off hoff⟩⟩

end Template

namespace Value

variable {size : Nat} {v : Value}

/-- What a constant of a source text has for texts: each is well-formed, and not much longer than
the source text. -/
theorem Written.spelled (h : v.Written size) : ∀ t ∈ v.texts, t.Spelled size := by
  cases v with
  | yarn t => exact List.forall_mem_singleton.2 h
  | interp t =>
    cases t with
    | none => exact h.elim
    | some t => exact List.forall_mem_singleton.2 h.1
  | _ => nofun

theorem Made.spelled (h : v.Made) : ∀ t ∈ v.texts, t.Spelled size := by
  cases v with
  | yarn t =>
    obtain rfl : t = [] := h
    exact List.forall_mem_singleton.2 ⟨rfl, Nat.zero_le _⟩
  | interp t => exact h.elim
  | _ => nofun

private theorem texts_retag (v : Value) (tag : Nat) : (v.retag tag).texts = v.texts := by
  cases v with
  | interp t => cases t <;> rfl
  | _ => rfl

/-- A constant of a source text has the shape that a stored chunk asks for. -/
private theorem Written.fault? (h : v.Written size) (tag place : Nat) :
    Chunk.constantFault? place (v.retag tag) = none := by
  cases v with
  | interp t =>
    cases t with
    | none => exact h.elim
    | some t => exact congrArg (Option.map _) h.2.1
  | bukkit r | unknown k => exact h.elim
  | _ => rfl

private theorem Made.fault? (h : v.Made) (tag place : Nat) :
    Chunk.constantFault? place (v.retag tag) = none := by
  cases v with
  | interp t | bukkit r | unknown k => exact h.elim
  | _ => rfl

end Value

namespace Chunk

variable {file : Int} {text : Text} {optimize : Bool} {c : Chunk}

private theorem constantsFault?_of_forall {ks : List Constant}
    (h : ∀ k ∈ ks, ∀ place, constantFault? place k.value = none) :
    ∀ place, constantsFault? place ks = none := by
  induction ks with
  | nil => exact fun _ => rfl
  | cons k ks ih =>
    obtain ⟨hk, hks⟩ := List.forall_mem_cons.1 h
    intro place
    rw [constantsFault?, hk place]
    exact ih hks _

namespace Contents

variable (h : c.Contents (Criteria.source file text.length).relaxed)
include h

theorem fault?_eq_none : c.fault? = none := by
  rw [fault?, if_neg (not_not_intro h.aligned)]
  refine constantsFault?_of_forall (fun k hk place => ?_) 0
  obtain ⟨v, tag, hv, hvalue⟩ := h.constants k hk
  rw [hvalue]
  rcases hv with hv | hv
  · exact Value.Written.fault? hv tag place
  · exact hv.fault? tag place

theorem spelled : ∀ k ∈ c.pool.constants.toList, ∀ t ∈ k.value.texts, t.Spelled text.length := by
  intro k hk
  obtain ⟨v, tag, hv, hvalue⟩ := h.constants k hk
  rw [hvalue, Value.texts_retag]
  rcases hv with hv | hv
  · exact Value.Written.spelled hv
  · exact hv.spelled

private theorem ordered {k : Constant} (hk : k ∈ c.pool.constants.toList) {t : Template}
    (ht : k.value = .interp (some t)) : t.Ordered := by
  obtain ⟨place, hplace⟩ := (of_fault?_eq_none h.fault?_eq_none).2 k hk
  rw [ht] at hplace
  exact .of_misplaced? (Option.map_eq_none_iff.1 hplace)

/-- A chunk of a source text can be written, if its offsets are machine integers. -/
private theorem encodable (hfile : Numbr.least ≤ file ∧ file ≤ Numbr.greatest)
    (hlength : text.length < 2 ^ 61) (hnames : ∀ name ∈ c.names, name.Storable) :
    c.Encodable where
  shape := h.fault?_eq_none
  coded hcoded := by
    rw [h.coded] at hcoded
    cases hcoded
  spare := h.pool.spare
  spans s hs := Span.Within.storable (h.spans s hs) hfile (by omega)
  texts k hk t ht := (h.spelled k hk t ht).storable hlength
  names := hnames

end Contents

/-- The chunk of any source text has the right shape, its texts are well-formed, and the places of
its templates are in order; it is always stored, and read back when its spans, its constants and its
names are not more than the reader takes. No limit on the places of a template is needed, as each of
them stands for a byte of code. -/
theorem saved_of_compileSource [CharNames] (h : compileSource file text optimize = .ok c) :
    c.fault? = none ∧
    (∀ k ∈ c.pool.constants.toList, ∀ t ∈ k.value.texts, t.isUtf8 = true) ∧
    (∀ name ∈ c.names, name.isUtf8 = true) ∧
    (∀ k ∈ c.pool.constants.toList, ∀ t, k.value = .interp (some t) → t.Ordered) ∧
    ∃ data, c.encode = .ok data ∧
      (Numbr.least ≤ file → file ≤ Numbr.greatest → text.length < 2 ^ 61 →
        c.positions.size ≤ Cbor.maxCount → c.pool.constants.size ≤ Cbor.maxCount →
        c.names.length ≤ Cbor.maxCount → ∃ c', decode data = .ok c') := by
  obtain ⟨p, hmeets, hp⟩ := exists_program_of_compileSource h
  have hcontents := hmeets.contents hp
  have hnames : c.names = (NameTable.ofSource file text).names.toList := by
    obtain ⟨a', -, rfl⟩ := Program.compile_parts hp
    rfl
  refine ⟨hcontents.fault?_eq_none, fun k hk t ht => (hcontents.spelled k hk t ht).1, ?_,
    fun k hk t ht => hcontents.ordered hk ht, marker ++ Cbor.bigEndian 2 formatVersion ++
      c.toCbor.encode, by rw [encode, hcontents.fault?_eq_none], ?_⟩
  · intro name hname
    rw [hnames] at hname
    rcases NameTable.mem_ofSource hname with rfl | ⟨hshape, -⟩
    · decide
    · exact Lexer.isUtf8_of_isName hshape
  · intro hleast hgreatest hlength hpositions hconstants hcount
    have hstored : ∀ name ∈ c.names, name.Storable := fun name hname =>
      NameTable.storable_ofSource (by omega) (hnames ▸ hname)
    have hfits : c.Fits :=
      ⟨hpositions, hconstants, fun k hk => Nat.le_trans (hcontents.places k hk)
        (hcontents.aligned ▸ hpositions), hcount⟩
    obtain ⟨data, c', hencode, hdecode, -⟩ :=
      decode_encode_canonical (hcontents.encodable ⟨hleast, hgreatest⟩ hlength hstored) hfits
    rw [encode, hcontents.fault?_eq_none] at hencode
    exact ⟨c', Except.ok.inj hencode ▸ hdecode⟩

/-- A source text with a byte that is no character, between two variables. -/
def brokenText : Text :=
  ("HAI 1.2\nI HAS A x ITZ 1\nVISIBLE \":\x7bx\x7d" : Text) ++
    0xFF :: (":\x7bx\x7d\"\nKTHXBYE\n" : Text)

attribute [local instance] CharNames.common

theorem saved_of_compileSource_broken_text :
    ∃ c data c', compileSource 0 brokenText true = .ok c ∧
      (∃ k ∈ c.pool.constants.toList, ∃ t, k.value = .interp (some t) ∧ t.Ordered ∧
        t.text = [0xEF, 0xBF, 0xBD] ∧ t.text.isUtf8 = true ∧ t.offsets = [0, 3]) ∧
      c.encode = .ok data ∧ decode data = .ok c' := by
  obtain ⟨c, hcompile, hc⟩ : ∃ c, compileSource 0 brokenText true = .ok c ∧
      decide (c.positions.size ≤ Cbor.maxCount ∧ c.pool.constants.size ≤ Cbor.maxCount ∧
        c.names.length ≤ Cbor.maxCount ∧
        c.pool.constants.toList[1]? =
          some (Constant.mk (.interp (some ⟨[0xEF, 0xBF, 0xBD], [0, 3], 1⟩)) {})) = true :=
    exists_compileText _ (by decide +kernel)
  obtain ⟨hpositions, hconstants, hnames, htemplate⟩ := of_decide_eq_true hc
  obtain ⟨-, htexts, -, hordered, data, hencode, hdecode⟩ := saved_of_compileSource hcompile
  obtain ⟨c', hc'⟩ := hdecode (by decide) (by decide) (by decide) hpositions hconstants hnames
  have hmem := List.mem_of_getElem? htemplate
  exact ⟨c, data, c', hcompile,
    ⟨_, hmem, _, rfl, hordered _ hmem _ rfl, rfl, htexts _ hmem _ List.mem_cons_self, rfl⟩, hencode,
    hc'⟩

end Chunk
end LolToolchain
