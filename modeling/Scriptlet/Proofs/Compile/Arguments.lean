import Scriptlet.Proofs.Compile.Listings
import Scriptlet.Proofs.Machine.Admission
import Scriptlet.Proofs.Machine.Vetting

/-!
The numbers of arguments in compiled code. A call of an offered function is checked where it stands,
and every other call is noted and checked when all functions are known. So each call of the code has
as many arguments as its function takes, except for the one that starts the program.
-/
namespace Scriptlet

open Code

variable {p : Program} {b : Body} {Q : Nat → Instruction → Prop} {a : Nat}

theorem final_vetted (holds : Holds p.words a (Statement.final.words Target.word))
    (property : Q a (Statement.final.instruction a)) : ∃ i c, Vetted.Statement p.words Q a i c := by
  refine ⟨Statement.final.instruction a, a + Statement.final.size, ?_⟩
  rw [Statement.final, Statement.words, Plain.words] at holds
  refine ⟨a + 1, Cursor.statement_gives rfl holds.append.1 fun _ => rfl, property, ?_⟩
  refine .open_ (Cursor.number_gives (by decide) holds.append.2) (.tokens (.parts (.done _)))

theorem body_vetted (sound : p.Sound) (body : b.Sound p) {r : References}
    (within : r.Within (b.references p)) (heads : Grants r Q) (valid : ∀ x ∈ b.row, x.Valid r)
    (returns : ∀ a, Q a (Statement.final.instruction a))
    (all : ∀ x ∈ b.row, ∀ a, Q a (x.instruction a))
    (member : a ∈ bounds b.start b.row) : ∃ i c, Vetted.Statement p.words Q a i c := by
  obtain ⟨x, holds, rfl | ⟨there, -⟩⟩ := body.statement_at member
  · exact final_vetted holds (returns a)
  · refine ⟨_, _, statement_vetted sound within heads holds (valid x there) (fun t aims => ?_)
      (all x there a)⟩
    obtain ⟨target, between, rfl⟩ := body.targets x there t aims
    exact ⟨target, body.inRange between, rfl⟩

namespace Compile

open Machine

variable {registry : Registry} {options : Options} {source : String} {t : Session}
  {limit place : Nat} {r : References}

/-- The function takes so many arguments: one of the program as many as it has parameters, and any
other as many as it was registered for. -/
structure Accepts (registry : Registry) (f : Function) (count : Nat) : Prop where
  parameters : ∀ g, f = .user g → count = g.parameters.toNat
  registered : ∀ arity, f.arity? = some arity →
    arity.admits count = true ∧ ∃ name, (name, f) ∈ registry.functions

/-- A call has as many arguments as its function takes, or it is the first one and its function is
one of the program. -/
def Suits (registry : Registry) (p : Program) (a : Nat) (i : Instruction) : Prop :=
  ∀ q wanted, i.callee? = some (q, wanted) → ∃ f, p.functions[q]? = some f ∧
    (Accepts registry f i.expressions ∨ a = 0 ∧ f.arity? = none)

theorem Makes.entry (makes : Makes t place p) {q : Nat} {callee : Callee}
    (entry : t.functions.entries[q]? = some callee) : p.functions[q]? = some callee.toFunction := by
  rw [makes.functions, List.getElem?_toArray, List.getElem?_map, entry]
  rfl

theorem Makes.accepts (makes : Makes t place p) (tabled : Tabled registry p)
    (resolved : ∀ c ∈ t.calls.toList, Resolved t c)
    (offered : ∀ (q : Nat) (f : Function), t.functions.entries[q]? = some (.offered f) →
      ∀ g, f ≠ .user g) {q count : Nat} (admits : t.Admits q count) :
    ∃ f, p.functions[q]? = some f ∧ Accepts registry f count := by
  obtain ⟨inside, ⟨f, entry, takes⟩ | ⟨other, c, noted, rfl, rfl⟩⟩ := admits
  · have found := makes.entry entry
    refine ⟨f, found, fun g same => absurd same (offered q f entry g), fun arity known => ?_⟩
    rw [known] at takes
    refine ⟨takes, ?_⟩
    rcases tabled.functions f (Array.mem_of_getElem? found) with ⟨g, _, rfl, -⟩ | named
    · cases known
    · exact named
  · have listed : c.place < t.functions.entries.length := by
      simpa [NameTable.entries] using inside
    have entry := List.getElem?_eq_getElem listed
    generalize t.functions.entries[c.place] = callee at entry
    cases callee with
    | pending name => exact absurd entry ((resolved c noted).defined name)
    | offered f => exact absurd entry (other f)
    | user f =>
      refine ⟨.user f, makes.entry entry, fun g same => ?_, fun arity known => ?_⟩
      · cases same
        exact (resolved c noted).counted f entry
      · cases known

theorem suits_plain (takes : ∀ q count, r.call q count →
      ∃ f, p.functions[q]? = some f ∧ Accepts registry f count) {x : Statement} (valid : x.Valid r)
        (a : Nat) :
    Suits registry p a (x.instruction a) := by
  intro q wanted same
  cases x with
  | plain y =>
    cases y with
    | call q' arguments =>
      cases same
      obtain ⟨f, found, takes⟩ := takes q _ valid.1
      exact ⟨f, found, Or.inl takes⟩
    | _ => cases same
  | _ => cases same

theorem suits_head (takes : ∀ q count, r.call q count →
      ∃ f, p.functions[q]? = some f ∧ Accepts registry f count) : Grants r (Suits registry p) := by
  intro a head n valid q wanted same
  cases head with
  | call q' =>
    cases same
    obtain ⟨f, found, takes⟩ := takes q _ valid
    exact ⟨f, found, Or.inl takes⟩
  | _ => cases same

theorem suits_return (a : Nat) : Suits registry p a (Statement.final.instruction a) := by
  intro q wanted same
  cases same

theorem entry_vetted (sound : p.Sound) (body : (entryBody place).Sound p) {f : UserFunction}
    (main : p.functions[place]? = some (.user f)) (member : a ∈ bounds 0 (entryBody place).row) :
    ∃ i c, Vetted.Statement p.words (Suits registry p) a i c := by
  obtain ⟨x, holds, rfl | ⟨there, next⟩⟩ := body.statement_at member
  · exact final_vetted holds (suits_return a)
  · obtain rfl := List.mem_singleton.mp there
    have spans := statement_spans sound holds (body.valid _ there) (by simp [Statement.target?])
    obtain ⟨c, gives, -⟩ := spans
    have first : a = 0 := by
      simp [entryBody, bounds, Statement.size, Statement.words, Plain.words, Plain.front,
        Plain.parts, partsWords] at next
      omega
    refine ⟨_, c, c, gives, ?_, .parts (.done c)⟩
    rintro q wanted same
    cases same
    exact ⟨.user f, main, Or.inr ⟨first, rfl⟩⟩

theorem compile_vetted (built : Registry.Built registry)
    (ok : compile registry options source = .ok p) (short : source.length < 2 ^ 32)
    (small : p.Small) :
    ∃ place bs, Charted p (boundaries (entryBody place :: bs))
      (Unregistered (options.registry registry)) ∧
      ∀ a ∈ boundaries (entryBody place :: bs),
        ∃ i c, Vetted.Statement p.words (Suits (options.registry registry) p) a i c := by
  have sound := compile_sound built ok short small
  have tabled := compile_tabled built ok
  obtain ⟨t, place, bs, assembled, more, globals⟩ := compile_assembled built ok
  obtain ⟨paves, sounds, users⟩ := assembled.paves short small
  have makes := assembled.makes
  have takes : ∀ q count, t.Admits q count →
      ∃ f, p.functions[q]? = some f ∧ Accepts (options.registry registry) f count :=
    fun q count admits => makes.accepts tabled assembled.resolved assembled.arranged.offered admits
  refine ⟨place, bs, assembled.paved.charted sound paves sounds users fun a may =>
    mayAssign_unregistered globals may, fun a member => ?_⟩
  obtain ⟨b, there, between⟩ := List.mem_flatMap.mp member
  have body := sounds b there
  rcases List.mem_cons.mp there with rfl | there
  · obtain ⟨f, main⟩ := assembled.main
    exact entry_vetted sound body (makes.entry main) between
  · obtain ⟨q, f, entry, coded⟩ := assembled.paved.defined b there
    have few := small.slots _ (Array.mem_of_getElem? (makes.entry entry))
    have size := small.words
    obtain ⟨-, parameters, locals, -⟩ := coded.sound makes short (by omega) small.globals few
    have within := frame_within_references (b := b) (congrArg _ makes.literals.symm)
      makes.globals_size makes.functions_size ⟨small.globals, locals ▸ few.2, parameters ▸ few.1⟩
    exact body_vetted sound body within (suits_head takes) coded.valid suits_return
      (fun x row a => suits_plain takes (coded.valid x row) a) between

theorem listed_accepts {e : Listing.Entry}
    (vouched : Listing.Vouched p (Suits registry p) e)
    (calls : e.op = .callStatement ∨ e.op = .call) (behind : e.ip ≠ 0) :
    ∃ q count f, p.words[e.ip + 1]? = some q ∧ p.words[e.ip + 2]? = some count ∧
      p.functions[q.toNat]? = some f ∧ Accepts registry f count.toNat := by
  have compound : e.op.isSimple = false := by
    rcases calls with same | same <;> rw [same] <;> rfl
  obtain ⟨i, b, gives, suits⟩ := vouched.2 compound
  obtain ⟨q, count, rfl, place, number⟩ := Cursor.call_words calls gives
  have calling : ∃ wanted, Instruction.callee? ⟨e.op, e.ip, .function q.toNat, count.toNat⟩ =
      some (q.toNat, wanted) := by
    rcases calls with same | same <;> rw [same] <;> exact ⟨_, rfl⟩
  obtain ⟨wanted, calling⟩ := calling
  obtain ⟨f, found, takes | ⟨first, -⟩⟩ := suits _ _ calling
  · exact ⟨q, count, f, place, number, found, takes⟩
  · exact absurd first behind

theorem admits_of_checked {World : Type} {m : Machine World}
    (checked : ∀ {i : Instruction} {values : List Value} {rest : List Work},
      m.work = .instruction i 0 values :: rest →
        (∃ a, Suits registry p a i) ∧ values.length = i.expressions) {f : Function}
    {arguments : List Value} {arity : Arity} (calling : m.calling? p = some (f, arguments))
    (known : f.arity? = some arity) : arity.admits arguments.length = true := by
  unfold calling? at calling
  split at calling
  · rename_i i values rest working
    obtain ⟨⟨q, wanted⟩, callee, called⟩ := Option.bind_eq_some_iff.mp calling
    obtain ⟨f', found, same⟩ := Option.map_eq_some_iff.mp called
    cases same
    obtain ⟨⟨a, suits⟩, length⟩ := checked working
    rw [List.length_reverse, length]
    obtain ⟨g, found', takes | ⟨-, none_⟩⟩ := suits _ _ callee
    · obtain rfl := Option.some.inj (found.symm.trans found')
      exact (takes.registered arity known).1
    · obtain rfl := Option.some.inj (found.symm.trans found')
      rw [known] at none_
      cases none_
  · cases calling

/-- Every call in compiled code, except for the first one of the code that starts the program, goes
to an entry of the function table. It has as many arguments as a function of the program has
parameters, or a number that the function was registered for. So whatever is called from outside and
whatever fails, functions of hosts and native functions are called with such numbers of arguments
only, and what they would do with any other makes no difference. -/
theorem arguments_admitted {World : Type} (built : Registry.Built registry)
    (ok : compile registry options source = .ok p) (short : source.length < 2 ^ 32)
    (small : p.Small) :
    (∃ es, p.entries = .ok es ∧ ∀ e ∈ es, e.op = .callStatement ∨ e.op = .call → e.ip ≠ 0 →
      ∃ q count f, p.words[e.ip + 1]? = some q ∧ p.words[e.ip + 2]? = some count ∧
        p.functions[q.toNat]? = some f ∧ Accepts (options.registry registry) f count.toNat) ∧
    (∀ m : Machine World, Met p m → m.Admits p) ∧
    ∀ natives calls (requests : List (Request World)) world,
      performAll (p.stray natives) (requests.map (Request.stray p calls))
        (init (p.stray natives) world) = performAll p requests (init p world) := by
  obtain ⟨es, text, listed, -⟩ := compile_listed built ok short small
  obtain ⟨place, bs, charted, vetted⟩ := compile_vetted built ok short small
  have admitted : ∀ m : Machine World, Met p m → m.Admits p := by
    intro m met busy f arguments calling arity known
    exact admits_of_checked (completed_checked charted vetted met busy) calling known
  refine ⟨⟨es, listed, fun e member => ?_⟩, admitted, fun natives calls requests world => ?_⟩
  · exact listed_accepts (Listing.entries_vouched charted vetted listed e member)
  · exact performAll_stray admitted requests ⟨[], .fresh world⟩

theorem arguments_admitted_asked :
    let registry := Registry.empty.addHost "ask" (.between 1 2)
    let options : Options := ⟨45, true, false, []⟩
    ∃ p es, compile registry options "Main() \x7b ask(F(1), 2) \x7d\nF(a) \x7b return a \x7d" =
        .ok p ∧ p.Small ∧ p.entries = .ok es ∧
      (∃ e ∈ es, e.op = .call ∧ e.ip = 9 ∧ ∃ q f, p.words[9 + 1]? = some q ∧
        p.words[9 + 2]? = some 1 ∧ p.functions[q.toNat]? = some f ∧
        Accepts (options.registry registry) f 1) ∧
      ∃ (m : Machine Unit) (f : Function) (arguments : List Value), Met p m ∧ m.atBoundary = false ∧
        m.calling? p = some (f, arguments) ∧ f.arity? = some (.between 1 2) ∧
        (Arity.between 1 2).admits arguments.length = true := by
  intro registry options
  have runs : ((compile registry options
      "Main() \x7b ask(F(1), 2) \x7d\nF(a) \x7b return a \x7d").toOption.any
      fun p => decide p.Small &&
        (p.entries.toOption.any fun es => es.any fun e => e.op == .call && e.ip == 9) &&
        decide (p.words[11]? = some 1) &&
        !(units Host.silent p 18 (init p ())).atBoundary &&
        ((units Host.silent p 18 (init p ())).calling? p).any fun called =>
          decide (called.1.arity? = some (.between 1 2))) = true := by
    decide +kernel
  cases ok : compile registry options "Main() \x7b ask(F(1), 2) \x7d\nF(a) \x7b return a \x7d" with
  | error ds =>
    rw [ok] at runs
    cases runs
  | ok p =>
    rw [ok] at runs
    simp only [Except.toOption, Option.any_some, Bool.and_eq_true, decide_eq_true_eq,
      Bool.not_eq_eq_eq_not, Bool.not_true] at runs
    obtain ⟨⟨⟨⟨small, listed⟩, count⟩, busy⟩, asked⟩ := runs
    have built : Registry.Built registry := .addHost _ _ .empty
    obtain ⟨⟨es, entries, calls⟩, admitted, -⟩ :=
      @arguments_admitted p registry options _ Unit built ok (by decide) small
    rw [entries] at listed
    obtain ⟨e, member, shown⟩ := Array.any_eq_true'.mp listed
    obtain ⟨op, ip⟩ := Bool.and_eq_true_iff.mp shown
    obtain ⟨op, ip⟩ := And.intro (eq_of_beq op) (eq_of_beq ip)
    obtain ⟨q, number, f, place, words, found, takes⟩ := calls e member (Or.inr op) (by omega)
    rw [ip] at place words
    obtain rfl := Option.some.inj (count.symm.trans words)
    obtain ⟨⟨g, arguments⟩, called, known⟩ := (Option.any_eq_true _ _).mp asked
    have met := units_met Host.silent p 18 ()
    have known := of_decide_eq_true known
    exact ⟨p, es, rfl, small, entries, ⟨e, member, op, ip, q, f, place, words, found, takes⟩,
      _, g, arguments, met, busy, called, known, admitted _ met busy g arguments called _ known⟩

end Compile

end Scriptlet
