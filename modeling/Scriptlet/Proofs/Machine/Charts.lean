import Scriptlet.Proofs.Machine.Boundaries
import Scriptlet.Proofs.Machine.Decoding

/-!
Running code whose statements are all known. If jumps and calls lead from statements to statements,
then every statement that is ever begun is one of them, whether units of work fail or not, and no
variable changes but those that they assign.
-/
namespace Scriptlet

/-- The code consists of statements at these addresses. Jumps and calls lead to them, and they
assign only such variables. -/
structure Charted (p : Program) (starts : List Nat) (W : Address → Prop) : Prop where
  chained : Chained p.words (fun i => (∀ t, i.target? = some t → t ∈ starts) ∧
    ∀ a, i.slot? = some a → W a) 0 starts
  users : ∀ f, .user f ∈ p.functions → f.ip.toNat ∈ starts

/-- Every instruction at work has the property somewhere, and it has got all the values that it does
not wait for. An expression right above it is one that it waits for. -/
inductive Tallied (Q : Nat → Instruction → Prop) : List Work → Prop where
  | idle : Tallied Q []
  | instruction {a n : Nat} {i : Instruction} {values : List Value} {rest : List Work} : Q a i →
      values.length + n = i.expressions → Tallied Q rest →
      Tallied Q (.instruction i n values :: rest)
  | expression {a n : Nat} {i : Instruction} {values : List Value} {rest : List Work} (k : Nat)
      (operands : List Value) : Q a i → values.length + n + 1 = i.expressions → Tallied Q rest →
      Tallied Q (.expression k operands :: .instruction i n values :: rest)

structure Checked (words : Array UInt32) (Q : Nat → Instruction → Prop) (ip : Nat)
    (work : List Work) :
    Prop where
  ahead : ∃ b, Vetted words Q ip (pendingOf work) b
  tallied : Tallied Q work

namespace Checked

variable {words : Array UInt32} {Q : Nat → Instruction → Prop} {ip ip' n : Nat}
  {work work' : List Work} {i : Instruction} {values operands : List Value}

theorem idle (words : Array UInt32) (Q : Nat → Instruction → Prop) (ip : Nat) :
    Checked words Q ip [] :=
  ⟨⟨ip, .done ip⟩, .idle⟩

theorem others (checked : Checked words Q ip (.expression n operands :: work))
    (others : List Value) :
    Checked words Q ip (.expression n others :: work) := by
  obtain ⟨ahead, tallied⟩ := checked
  cases tallied with
  | expression _ _ property count rest => exact ⟨ahead, .expression n others property count rest⟩

theorem below (checked : Checked words Q ip (.instruction i 0 values :: work)) :
    (∃ a, Q a i) ∧ values.length = i.expressions ∧ Checked words Q ip work := by
  obtain ⟨⟨b, ahead⟩, tallied⟩ := checked
  cases tallied with
  | instruction property count rest =>
    exact ⟨⟨_, property⟩, count, ⟨b, ahead.of_parts_zero⟩, rest⟩

theorem step (checked : Checked words Q ip work) (nearer : Nearer words ip work ip' work') :
    Checked words Q ip' work' := by
  have all := checked
  obtain ⟨⟨b, ahead⟩, tallied⟩ := checked
  cases nearer with
  | open_ _ gives =>
    cases tallied with
    | instruction property count rest =>
      exact ⟨⟨b, ahead.of_open gives⟩, .expression _ _ property (by omega) rest⟩
  | token _ gives others =>
    cases tallied with
    | expression _ _ property count rest =>
      exact ⟨⟨b, (ahead.of_token gives).2.of_parts_zero⟩, .expression _ _ property count rest⟩
  | compound _ gives _ =>
    obtain ⟨found, ahead⟩ := ahead.of_token gives
    cases tallied with
    | expression _ _ property count rest =>
      exact ⟨⟨b, ahead⟩, .instruction (found _ rfl) (by simp) (.expression _ _ property count rest)⟩
  | close _ v =>
    cases tallied with
    | expression _ _ property count rest =>
      refine ⟨⟨b, ahead.of_tokens_zero⟩, .instruction property ?_ rest⟩
      rw [List.length_cons]
      omega
  | value _ others => exact all.below.2.2.others others

end Checked

namespace Machine

variable {World : Type} {host : Host World} {p : Program} {Q : Nat → Instruction → Prop}
  {gs : List UserFunction} {starts : List Nat} {W : Address → Prop}
  {m m' : Machine World} {ip : Nat} {work work' : List Work} {calls calls' : List Call}
  {fault : Option Fault}

variable (p starts) in
/-- A layer of work belongs to one of the statements, or the next one is about to begin. -/
inductive Placed : Nat → List Work → Prop where
  | idle {ip : Nat} : ip ∈ starts ∨ ip = p.words.size → Placed ip []
  | busy {a start ip : Nat} {i : Instruction} {work : List Work} : a ∈ starts →
      (Cursor.statement p.words).Gives a (some i) start → Course p.words start i ip work →
      Placed ip work

namespace Placed

variable {j : Instruction} {values : List Value}

theorem readable (placed : Placed p starts ip work) (charted : Charted p starts W) :
    ∃ b, Spans p.words ip (pendingOf work) b := by
  cases placed with
  | idle _ => exact ⟨ip, .done ip⟩
  | busy member gives course =>
    obtain ⟨i, b, ⟨start, gives', spans⟩, -, -⟩ := charted.chained.statement_at member
    obtain ⟨same, rfl⟩ := gives.unique gives'
    cases same
    exact ⟨b, (course.spans b).mp spans⟩

theorem step {ip' : Nat} (placed : Placed p starts ip work) (busy : work ≠ [])
    (nearer : Nearer p.words ip work ip' work') : Placed p starts ip' work' := by
  cases placed with
  | idle _ => exact absurd rfl busy
  | busy member gives course => exact .busy member gives (course.step nearer)

theorem complete (placed : Placed p starts ip [.instruction j 0 values])
    (charted : Charted p starts W) : (ip ∈ starts ∨ ip = p.words.size) ∧
      (∀ t, j.target? = some t → t ∈ starts) ∧ ∀ a, j.slot? = some a → W a := by
  cases placed with
  | busy member gives course =>
    obtain ⟨rfl, spans⟩ := course.complete
    obtain ⟨i, b, spans', ⟨targets, slots⟩, next⟩ := charted.chained.statement_at member
    obtain ⟨rfl, rfl⟩ := spans'.unique ⟨_, gives, spans⟩
    exact ⟨next, targets, slots⟩

theorem suspend (placed : Placed p starts ip (.instruction j 0 values :: work))
    (charted : Charted p starts W) : Placed p starts ip work := by
  cases work with
  | nil => exact .idle (placed.complete charted).1
  | cons w rest =>
    cases placed with
    | busy member gives course => exact .busy member gives (course.suspend (by simp))

theorem resume {n : Nat} {operands : List Value}
    (placed : Placed p starts ip (.expression n operands :: work)) (others : List Value) :
    Placed p starts ip (.expression n others :: work) := by
  cases placed with
  | busy member gives course =>
    exact .busy member gives (course.resume rfl (bottom_expression ..))

end Placed

variable (p starts) in
structure OnChart (m : Machine World) (work : List Work) (calls : List Call) : Prop where
  stacked : Stacked m work calls
  here : Placed p starts m.cursor.ip work
  callers : ∀ c ∈ calls, Placed p starts c.ip c.work

variable (p Q) in
structure AllChecked (m : Machine World) (work : List Work) (calls : List Call) : Prop where
  here : Checked p.words Q m.cursor.ip work
  callers : ∀ c ∈ calls, Checked p.words Q c.ip c.work

theorem OnChart.told (chart : OnChart p starts m work calls) (started halted : Bool)
    (world : World) :
    OnChart p starts { m with started, halted, world } work calls :=
  ⟨⟨chart.stacked.working, chart.stacked.frames, chart.stacked.saved, chart.stacked.based⟩,
    chart.here, chart.callers⟩

theorem mem_changed {a : Address} {v : Value} {c : Call} (member : c ∈ changed a v calls) :
    ∃ d ∈ calls, c.ip = d.ip ∧ c.work = d.work := by
  cases calls with
  | nil => cases member
  | cons d calls =>
    rcases List.mem_cons.mp member with rfl | member
    · exact ⟨d, List.mem_cons_self, rfl, rfl⟩
    · exact ⟨c, List.mem_cons_of_mem _ member, rfl, rfl⟩

section

variable (turn : Turn host p m work calls fault m' work' calls')
include turn

theorem Turn.onChart
    (charted : Charted p starts W) (chart : OnChart p starts m work calls) (busy : work ≠ []) :
    OnChart p starts m' work' calls' := by
  have stacked' := turn.stacked chart.stacked
  obtain ⟨stacked, here, callers⟩ := chart
  cases turn with
  | stuck _ unspanned =>
    obtain ⟨b, spans⟩ := here.readable charted
    exact absurd spans (unspanned b)
  | goes nearer _ => exact ⟨stacked', here.step busy nearer, callers⟩
  | passes _ where_ _ =>
    obtain ⟨next, targets, -⟩ := here.complete charted
    refine ⟨stacked', .idle ?_, callers⟩
    rcases where_ with rfl | target
    · exact next
    · exact Or.inl (targets _ target)
  | @stores _ _ _ slot v _ =>
    refine ⟨stacked', .idle ?_, fun c member => ?_⟩
    · rw [setSlot_eq]
      exact (here.complete charted).1
    · obtain ⟨d, member, at_, waits⟩ := mem_changed member
      rw [at_, waits]
      exact callers d member
  | halts => exact ⟨stacked', .idle (here.complete charted).1, callers⟩
  | @enters _ _ _ _ _ _ g _ _ _ found _ where_ _ =>
    have start := charted.users g (Array.mem_of_getElem? found)
    refine ⟨stacked', .idle (Or.inl ?_), List.forall_mem_cons.mpr ⟨here.suspend charted, callers⟩⟩
    rcases where_ with ⟨_, rfl⟩ | ⟨outside, _⟩
    · exact start
    · have := charted.chained.mem_lt start
      omega
  | returns _ idle =>
    obtain ⟨back, callers⟩ := List.forall_mem_cons.mp callers
    rw [idle] at back
    exact ⟨stacked', back, callers⟩
  | answers _ waits =>
    obtain ⟨back, callers⟩ := List.forall_mem_cons.mp callers
    rw [waits] at back
    exact ⟨stacked', back.resume _, callers⟩

theorem Turn.checked (checked : AllChecked p Q m work calls) : AllChecked p Q m' work' calls' := by
  obtain ⟨here, callers⟩ := checked
  cases turn with
  | stuck _ unspanned =>
    obtain ⟨b, ahead⟩ := here.ahead
    exact absurd ahead.spans (unspanned b)
  | goes nearer _ => exact ⟨here.step nearer, callers⟩
  | passes _ _ _ => exact ⟨.idle _ _ _, callers⟩
  | stores _ =>
    refine ⟨.idle _ _ _, fun c member => ?_⟩
    obtain ⟨d, member, at_, waits⟩ := mem_changed member
    rw [at_, waits]
    exact callers d member
  | halts => exact ⟨.idle _ _ _, callers⟩
  | enters =>
    exact ⟨.idle _ _ _, List.forall_mem_cons.mpr ⟨here.below.2.2, callers⟩⟩
  | returns => exact ⟨.idle _ _ _, (List.forall_mem_cons.mp callers).2⟩
  | answers _ waits =>
    obtain ⟨back, callers⟩ := List.forall_mem_cons.mp callers
    rw [waits] at back
    exact ⟨back.others _, callers⟩

theorem Turn.globals (charted : Charted p starts W) (chart : OnChart p starts m work calls) :
    m'.globals = m.globals ∨ ∃ a v, a.scope = .globals ∧ W a ∧
      m'.globals = m.globals.setIfInBounds a.index.toNat v := by
  cases turn with
  | @stores _ _ _ slot v assigns =>
    obtain ⟨-, -, slots⟩ := chart.here.complete charted
    rw [setSlot_eq]
    by_cases global : slot.scope = .globals
    · exact Or.inr ⟨slot, v, global, slots slot assigns, if_pos global⟩
    · exact Or.inl (if_neg global)
  | _ => exact Or.inl rfl

end

theorem begin_atEnd (ended : m.cursor.ip = p.words.size) : ending (beginStatement p m) = m := by
  have missing : (Cursor.Reading.of (Cursor.opcode p.words)).Fails m.cursor.ip
      (.endOfStream m.cursor.ip) m.cursor.ip := by
    intro saved
    have none_ : p.words[m.cursor.ip]? = none := by
      rw [ended]
      exact Array.getElem?_eq_none (Nat.le_refl _)
    simp only [Cursor.Reading.of, Cursor.opcode, Cursor.word, none_]
  rw [beginStatement, Actions.get_bind, Actions.bind_error _ (by exact read_fails missing)]
  rfl

theorem begin_checked (vetted : ∀ c ∈ starts, ∃ i b, Vetted.Statement p.words Q c i b)
    (chart : OnChart p starts m [] calls) (checked : AllChecked p Q m [] calls) :
    (ending (beginStatement p m)).globals = m.globals ∧
      ∃ work', OnChart p starts (ending (beginStatement p m)) work' calls ∧
        AllChecked p Q (ending (beginStatement p m)) work' calls := by
  obtain ⟨stacked, here, callers⟩ := chart
  have next : m.cursor.ip ∈ starts ∨ m.cursor.ip = p.words.size := by
    cases here with
    | idle next => exact next
    | busy _ _ course => exact absurd rfl course.busy
  rcases next with member | ended
  · obtain ⟨i, b, start, gives, property, ahead⟩ := vetted _ member
    rcases begin_turns p m with ⟨_, _, _, unspanned, _⟩ | ⟨j, c, gives', _, begun⟩
    · exact absurd ⟨start, gives, ahead.spans⟩ (unspanned i b)
    · obtain ⟨same, rfl⟩ := gives.unique gives'
      cases same
      rw [begun]
      exact ⟨rfl, [.instruction i i.expressions []],
        ⟨stacked.push,
          .busy member gives (.begin_ p.words start i), callers⟩,
        ⟨⟨b, ahead⟩, .instruction property (by simp) .idle⟩, checked.callers⟩
  · rw [begin_atEnd ended]
    exact ⟨rfl, [], ⟨stacked, here, callers⟩, checked⟩

theorem visited_checked (charted : Charted p starts W)
    (vetted : ∀ c ∈ starts, ∃ i b, Vetted.Statement p.words Q c i b) (visited : Visited p gs m) :
    (∃ work calls, OnChart p starts m work calls ∧ AllChecked p Q m work calls) ∧
      m.globals.size = p.globals.size ∧
      ∀ k, (∀ a, W a → a.scope = .globals → a.index.toNat ≠ k) → m.globals[k]? = p.globals[k]? := by
  induction visited with
  | fresh world =>
    exact ⟨⟨[], [], ⟨⟨rfl, rfl, rfl, .nobody⟩, .idle charted.chained.first, by simp⟩, .idle _ _ _,
      by simp⟩, rfl, fun _ _ => rfl⟩
  | @announce gs m host _ ih =>
    obtain ⟨⟨work, calls, chart, checked⟩, globals⟩ := ih
    obtain ⟨started, world, same⟩ := @announced_eq _ host m
    rw [same]
    exact ⟨⟨work, calls, chart.told _ _ _, checked.here, checked.callers⟩, globals⟩
  | @halt gs m host _ ih =>
    obtain ⟨⟨work, calls, chart, checked⟩, globals⟩ := ih
    exact ⟨⟨work, calls, chart.told _ _ _, checked.here, checked.callers⟩, globals⟩
  | begin_ _ boundary ih =>
    obtain ⟨⟨work, calls, chart, checked⟩, globals⟩ := ih
    obtain rfl := chart.stacked.boundary_iff.mp boundary
    obtain ⟨same, work', both⟩ := begin_checked vetted chart checked
    rw [same]
    exact ⟨⟨work', calls, both⟩, globals⟩
  | @advance gs m host visited busy ih =>
    obtain ⟨⟨work, calls, chart, checked⟩, size, kept⟩ := ih
    have working := chart.stacked.busy busy
    obtain ⟨work', calls', turn⟩ :=
      @advance_turns _ host _ _ _ _ _ (visited_intact visited) chart.stacked working
    refine ⟨⟨work', calls', turn.onChart charted chart working, turn.checked checked⟩, ?_⟩
    rcases turn.globals charted chart with same | ⟨a, v, scope, may, same⟩
    · rw [same]
      exact ⟨size, kept⟩
    · rw [same]
      refine ⟨by rw [Array.size_setIfInBounds, size], fun k other => ?_⟩
      rw [Array.getElem?_setIfInBounds_ne (other a may scope)]
      exact kept k other

theorem visited_onChart (charted : Charted p starts W) (visited : Visited p gs m) :
    (∃ work calls, OnChart p starts m work calls) ∧ m.globals.size = p.globals.size ∧
      ∀ k, (∀ a, W a → a.scope = .globals → a.index.toNat ≠ k) → m.globals[k]? = p.globals[k]? := by
  have vetted : ∀ c ∈ starts, ∃ i b, Vetted.Statement p.words (fun _ _ => True) c i b := by
    intro c member
    obtain ⟨i, b, ⟨start, gives, spans⟩, -⟩ := charted.chained.statement_at member
    exact ⟨i, b, start, gives, trivial, .of_spans spans⟩
  obtain ⟨⟨work, calls, chart, -⟩, globals⟩ := visited_checked charted vetted visited
  exact ⟨⟨work, calls, chart⟩, globals⟩

end Machine

end Scriptlet
