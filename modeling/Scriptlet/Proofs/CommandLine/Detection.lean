import Scriptlet.CommandLine.Run
import Scriptlet.Proofs.Format.Loading
import Scriptlet.Proofs.Source.Lexical
import Scriptlet.Proofs.Text.Utf8

/-!
Telling source text from saved programs. A saved program starts with four letters, and a file that
starts so is loaded, anything else is compiled. The letters are a name of the language, so that a
source may start with them too: such a source is compiled by the command that compiles, but never
run.
-/
namespace Scriptlet

namespace Format

variable {bytes : List UInt8}

def letters : String := "SILK"

theorem magic_letters : encodeWord magic = letters.toUTF8.data.toList := by decide +kernel

theorem isSaved_iff : isSaved bytes = true ↔ letters.toUTF8.data.toList <+: bytes := by
  rw [isSaved, List.isPrefixOf_iff_prefix, magic_letters]

theorem isSaved_text (source : String) :
    isSaved source.toUTF8.data.toList = true ↔ letters.toList <+: source.toList :=
  isSaved_iff.trans Utf8.bytes_prefix

theorem encode_isSaved {p : Program} (written : p.encode = .ok bytes) : isSaved bytes = true := by
  obtain ⟨-, -, tables, -, rfl⟩ := encode_ok written
  rw [isSaved, List.isPrefixOf_iff_prefix, header]
  simp only [List.append_assoc]
  exact List.prefix_append _ _

/-- A zero behind the letters, as the version of every saved program has it, starts nothing in a
source. -/
theorem letters_zero_stray (rest : List Char) :
    ∃ p ∈ Token.pieces (letters.toList ++ '\x00' :: rest), p.role.isReported = true := by
  have word : Token.Piece.cut 'S' ('I' :: 'L' :: 'K' :: '\x00' :: rest) =
      ⟨.plain .symbol, ['S', 'I', 'L', 'K'], '\x00' :: rest⟩ := rfl
  have zero : (Token.Piece.cut '\x00' rest).role = .stray := by
    cases rest with
    | nil | cons => rfl
  refine ⟨Token.Piece.cut '\x00' rest, ?_, by rw [zero]; rfl⟩
  change _ ∈ Token.pieces ('S' :: 'I' :: 'L' :: 'K' :: '\x00' :: rest)
  rw [Token.pieces_cons, word, Token.pieces_cons]
  simp

end Format

namespace Compile

open Format

theorem compiled_not_loaded {host registry : Registry} {options : Options} {source : String}
    {p q : Program} (ok : compile host options source = .ok p) :
    Program.decode registry source.toUTF8.data.toList ≠ .ok q := by
  intro read
  obtain ⟨rest, read⟩ := decode_eq_ok_iff.mp read
  obtain ⟨flags, body, split⟩ := decodeProgram_header read
  -- the first five bytes are the letters and a zero
  have front : (letters ++ "\x00").toUTF8.data.toList <+: source.toUTF8.data.toList := by
    have bytes : (letters ++ "\x00").toUTF8.data.toList = encodeWord magic ++ [0] := by
      decide +kernel
    rw [split, bytes, header]
    exact ⟨[0, 0, 0] ++ encodeWord flags ++ body, by simp [encodeWord, version]⟩
  obtain ⟨more, source_eq⟩ := Utf8.bytes_prefix.mp front
  obtain ⟨s, ran, clean, -⟩ := compile_ran ok
  obtain ⟨piece, member, stray⟩ := letters_zero_stray more
  refine start_unflawed ran clean (Or.inr (Or.inr ⟨piece, ?_, stray⟩))
  change piece ∈ Token.pieces source.toList
  rw [← source_eq, String.toList_append, List.append_assoc]
  exact member

end Compile

namespace CommandLine

open Format Compile

variable {options : Options} {source : String} {p : Program}

theorem loadOrCompile_saved (flags : Flags) (color : Bool) (options : Options) (path : String)
    {bytes : List UInt8} (saved : isSaved bytes = true) :
    loadOrCompile flags color options path bytes = .ok p ↔
      Program.decode (options.registry offered) bytes = .ok p := by
  rw [loadOrCompile, if_pos saved]
  cases Program.decode (options.registry offered) bytes with
  | error | ok => simp

theorem loadOrCompile_text (flags : Flags) (color : Bool) (path : String)
    (ok : compile offered options source = .ok p) (other : ¬ letters.toList <+: source.toList) :
    loadOrCompile flags color options path source.toUTF8.data.toList = .ok p := by
  rw [loadOrCompile, if_neg (mt (isSaved_text source).mp other), compileBytes, Utf8.decode_bytes]
  simp only [ok]

theorem offered_built : offered.Built := .addHost _ _ (.addHost _ _ .empty)

/-- Source and saved programs are told apart by the letters in front. Every saved program has them,
and a text is taken for one exactly if it starts with them. A source that compiles is run as the
program that it compiles to exactly if it does not, and the same program comes of its saved form
exactly within the limits of the reader. -/
theorem source_told_apart (flags : Flags) (color : Bool) (path : String)
    (ok : compile offered options source = .ok p) :
    (∀ text : String, isSaved text.toUTF8.data.toList = true ↔ letters.toList <+: text.toList) ∧
    (∀ (q : Program) (bytes : List UInt8), q.encode = .ok bytes → isSaved bytes = true) ∧
    (loadOrCompile flags color options path source.toUTF8.data.toList = .ok p ↔
      ¬ letters.toList <+: source.toList) ∧
    ∀ bytes, p.encode = .ok bytes → (loadOrCompile flags color options path bytes = .ok p ↔
      (∀ f, .user f ∈ p.functions → f.locals.toNat + f.parameters.toNat ≤ maxSlots) ∧
      ∀ c ∈ (options.registry offered).constants, c.2.nesting ≤ maxNesting) := by
  refine ⟨isSaved_text, fun _ _ => encode_isSaved, ⟨?_, loadOrCompile_text flags color path ok⟩, ?_⟩
  · intro loaded starts
    rw [loadOrCompile_saved _ _ _ _ ((isSaved_text source).mpr starts)] at loaded
    exact compiled_not_loaded ok loaded
  · intro bytes written
    rw [loadOrCompile_saved _ _ _ _ (encode_isSaved written), decode_eq_ok_iff]
    constructor
    · rintro ⟨rest, read⟩
      obtain ⟨slots, shallow⟩ := decodeProgram_limits read
      exact ⟨slots, compiled_shallow offered_built ok shallow⟩
    · rintro ⟨slots, shallow⟩
      exact ⟨[], loadable_read written (compiled_loadable offered_built ok written slots shallow)⟩

theorem source_told_apart_other :
    let flags : Flags := ⟨false, false, false, false, none, none⟩
    let source := "SILT() \x7b \x7d\nMain() \x7b return SILT() \x7d"
    ∃ p bytes, compile offered .default source = .ok p ∧ p.encode = .ok bytes ∧
      isSaved source.toUTF8.data.toList = false ∧ isSaved bytes = true ∧
      loadOrCompile flags false .default "a" source.toUTF8.data.toList = .ok p ∧
      loadOrCompile flags false .default "a" bytes = .ok p := by
  intro flags source
  have runs : ((compile offered .default source).toOption.any fun p =>
      p.encode.isOk && p.functions.all fewSlots) = true := by decide +kernel
  have other : ¬ letters.toList <+: source.toList := by decide +kernel
  have shallow : ((Options.default.registry offered).constants.all fun c =>
      decide (c.2.nesting ≤ maxNesting)) = true := by decide +kernel
  cases ok : compile offered .default source with
  | error ds =>
    rw [ok] at runs
    cases runs
  | ok p =>
  rw [ok] at runs
  obtain ⟨saved, slots⟩ := Bool.and_eq_true_iff.mp runs
  cases written : p.encode with
  | error e =>
    rw [written] at saved
    cases saved
  | ok bytes =>
    obtain ⟨text, program, compiled, loads⟩ := source_told_apart flags false "a" ok
    refine ⟨p, bytes, rfl, written, ?_, program p bytes written, compiled.mpr other,
      (loads bytes written).mpr ⟨?_, ?_⟩⟩
    · exact Bool.eq_false_iff.mpr (mt (text source).mp other)
    · intro f member
      exact of_decide_eq_true (Array.all_eq_true_iff_forall_mem.mp slots _ member)
    · intro c member
      exact of_decide_eq_true (List.all_eq_true.mp shallow c member)

/-- A source may start with the letters. It is compiled, but it is taken for a saved program, and
cannot be run. -/
theorem source_with_letters :
    let flags : Flags := ⟨false, false, false, false, none, none⟩
    let source := "SILK() \x7b \x7d\nMain() \x7b return 7 \x7d"
    (∃ p, compile offered .default source = .ok p) ∧ isSaved source.toUTF8.data.toList = true ∧
      ∀ q, loadOrCompile flags false .default "a" source.toUTF8.data.toList ≠ .ok q := by
  intro flags source
  have saved : isSaved source.toUTF8.data.toList = true := by decide +kernel
  have runs : (compile offered .default source).isOk = true := by decide +kernel
  cases ok : compile offered .default source with
  | error ds =>
    rw [ok] at runs
    cases runs
  | ok p =>
    refine ⟨⟨p, rfl⟩, saved, fun q loaded => ?_⟩
    rw [loadOrCompile_saved _ _ _ _ saved] at loaded
    exact compiled_not_loaded ok loaded

end CommandLine

end Scriptlet
