/-
Module: Bprd.Proofs.CaptureCommands
Layer: Proofs
Purpose: The commands that install the capture rules. Whatever commodity strings a start of the daemon
  accepts, every command is constructed and none is cut off; it has no character that is special to the
  shell, its words at the blanks are those of the rule, and the destination and the queue number in them
  are read back as those of the rule.
Imports: Bprd.Proofs.NetaddrRoundTrip, Bprd.Proofs.NetworkFacts
Trusted boundary: none
Main exports: plainInShell, RunsAs, ruleCommand_runsAs, capture_commands_faithful
-/
import Bprd.Proofs.NetaddrRoundTrip
import Bprd.Proofs.NetworkFacts

namespace Bprd

open CText (decimalText)

/-- A letter, a digit, or one of the characters that the shell takes as they are. -/
def plainInShell (c : Char) : Bool := c.isAlphanum || " /-.:".toList.contains c

/-- The words of the command for a rule, with the texts of its destination and its queue number. -/
def ruleWords (rule : Rule) (dst queueNum : List Char) : List (List Char) :=
  ["/sbin/iptables".toList, "-t".toList, "raw".toList, "-A".toList, rule.chain.text, "-d".toList, dst,
    "-j".toList, "NFQUEUE".toList, "--queue-num".toList, queueNum]

/-- The command that the shell runs is the one of the rule. -/
structure RunsAs (rule : Rule) (cmd : List Char) : Prop where
  /-- The buffer holds the command with its terminating NUL. -/
  fits : cmd.length < 256
  plain : ∀ c ∈ cmd, plainInShell c = true
  words : ∃ dst queueNum, cmd.splitOn ' ' = ruleWords rule dst queueNum ∧
    netaddrFromString dst = some rule.dst ∧
    CText.strtoul queueNum = some (UInt64.ofNat rule.queueNum.toNat, [])

theorem ruleText_eq (rule : Rule) (dst : List Char) :
    ruleText rule dst = [' '].intercalate (ruleWords rule dst (decimalText rule.queueNum.toNat)) := by
  unfold ruleText ruleWords
  simp only [List.intercalate_cons_cons, List.intercalate_singleton, List.append_assoc]
  rfl

/-! ### One command -/

theorem isAlphanum_of_hexDigit {c : Char} (digit : (CText.hexDigit c).isSome = true) :
    c.isAlphanum = true := by
  show ((decide (c.val ≥ 'A'.val ∧ c.val ≤ 'Z'.val) ||
      (decide (c.val ≥ 'a'.val) && decide (c.val ≤ 'z'.val))) ||
    (decide (c.val ≥ '0'.val) && decide (c.val ≤ '9'.val))) = true
  simp only [Bool.or_eq_true, Bool.and_eq_true, decide_eq_true_eq]
  unfold CText.hexDigit at digit
  split_ifs at digit with decimal lower upper
  · exact .inr decimal
  · exact .inl (.inr ⟨lower.1, UInt32.le_trans lower.2 (show 'f'.val ≤ 'z'.val by decide)⟩)
  · exact .inl (.inl ⟨upper.1, UInt32.le_trans upper.2 (show 'F'.val ≤ 'Z'.val by decide)⟩)
  · cases digit

theorem plainInShell_of_textChar {c : Char} (char : textChar c = true ∨ c = '/') :
    plainInShell c = true := by
  rcases char with char | rfl
  · rw [textChar, CText.addressChar] at char
    simp only [Bool.or_eq_true, decide_eq_true_eq] at char
    rcases char with ((digit | rfl) | rfl) | rfl
    · rw [plainInShell, isAlphanum_of_hexDigit digit, Bool.true_or]
    all_goals decide
  · decide

theorem not_blank_of_textChar {c : Char} (char : textChar c = true ∨ c = '/') : c ≠ ' ' := by
  rintro rfl
  exact absurd char (by decide)

theorem textChar_of_decimalText {n : Nat} : ∀ c ∈ decimalText n, textChar c = true :=
  fun c inside => textChar_of_addressChar (CText.addressChar_of_isDigit (CText.decimalText_digits n c inside))

/-- The words that are the same in every command. -/
theorem ruleWords_fixed (chain : Chain) : ∀ word ∈ ["/sbin/iptables".toList, "-t".toList, "raw".toList,
    "-A".toList, chain.text, "-d".toList, "-j".toList, "NFQUEUE".toList, "--queue-num".toList],
      ∀ c ∈ word, plainInShell c = true ∧ c ≠ ' ' := by
  intro word member c inside
  have checked : (["/sbin/iptables".toList, "-t".toList, "raw".toList, "-A".toList, chain.text,
      "-d".toList, "-j".toList, "NFQUEUE".toList, "--queue-num".toList].all fun word =>
        word.all fun c => plainInShell c && c != ' ') = true := by
    cases chain <;> rfl
  have isChecked := List.all_eq_true.mp (List.all_eq_true.mp checked word member) c inside
  rw [Bool.and_eq_true, bne_iff_ne] at isChecked
  exact isChecked

theorem ruleWords_chars {rule : Rule} {dst : List Char}
    (chars : ∀ c ∈ dst, textChar c = true ∨ c = '/') :
    ∀ word ∈ ruleWords rule dst (decimalText rule.queueNum.toNat),
      ∀ c ∈ word, plainInShell c = true ∧ c ≠ ' ' := by
  intro word member c inside
  by_cases isDst : word = dst
  · have char := chars c (isDst ▸ inside)
    exact ⟨plainInShell_of_textChar char, not_blank_of_textChar char⟩
  · by_cases isQueueNum : word = decimalText rule.queueNum.toNat
    · have char := textChar_of_decimalText c (isQueueNum ▸ inside)
      exact ⟨plainInShell_of_textChar (.inl char), not_blank_of_textChar (.inl char)⟩
    · apply ruleWords_fixed rule.chain word _ c inside
      simpa only [ruleWords, List.mem_cons, List.not_mem_nil, isDst, isQueueNum, false_or, or_false]
        using member

theorem ruleText_length {rule : Rule} {dst : List Char} (short : dst.length < sizeofNetaddrStr) :
    (ruleText rule dst).length < 256 := by
  have digits : (decimalText rule.queueNum.toNat).length ≤ 5 :=
    CText.decimalText_length (by have := rule.queueNum.toNat_lt; omega) (by decide)
  have chain : rule.chain.text.length ≤ 10 := by
    cases rule.chain <;> decide
  have size : sizeofNetaddrStr = 62 := rfl
  have fixed : "/sbin/iptables -t raw -A ".toList.length = 25 ∧ " -d ".toList.length = 4 ∧
      " -j NFQUEUE --queue-num ".toList.length = 24 := by decide
  unfold ruleText
  simp only [List.length_append, fixed]
  omega

/-- The command for a rule with a valid destination. -/
theorem ruleCommand_runsAs {rule : Rule} (valid : ValidNetaddr rule.dst) :
    ∃ cmd, ruleCommand rule = .ok cmd ∧ RunsAs rule cmd := by
  obtain ⟨dst, written, short, chars, back⟩ := valid.roundtrip false
  have fits := @ruleText_length rule dst short
  have whole : (ruleText rule dst).take 255 = ruleText rule dst :=
    List.take_of_length_le (Nat.le_of_lt_succ fits)
  have wordChars := @ruleWords_chars rule dst chars
  refine ⟨ruleText rule dst, ?_, fits, ?_, dst, decimalText rule.queueNum.toNat, ?_, back, ?_⟩
  · rw [ruleCommand, netaddrToString, written]
    dsimp only
    rw [if_neg (Nat.ne_of_lt fits), whole]
  · intro c inside
    rw [ruleText_eq] at inside
    rcases CText.mem_intercalate inside with rfl | ⟨word, isWord, inWord⟩
    · decide
    · exact (wordChars word isWord c inWord).1
  · rw [ruleText_eq]
    exact List.splitOn_intercalate ' ' (fun word isWord blank => (wordChars word isWord ' ' blank).2 rfl)
      (List.cons_ne_nil _ _)
  · exact CText.strtoul_decimalText (Nat.lt_trans rule.queueNum.toNat_lt (by decide))

example : ruleCommand ⟨.output, ⟨padAddr [10, 0, 0, 0], afInet, 8⟩, 3⟩ =
    .ok "/sbin/iptables -t raw -A OUTPUT -d 10.0.0.0/8 -j NFQUEUE --queue-num 3".toList := rfl

/-! ### A start of the daemon -/

section

variable {createQueue : UInt16 → Option QueueHandle} {leftover : Leftover} {ipver : UInt8}
  {strings : List (List Char)} {bprd bprd' : BprdT} {rules : List Rule}

/-- The destination of a rule is that of a commodity. -/
theorem captureRules_dst {naddr : Netaddr} {clist : List Commodity} {rule : Rule}
    (member : rule ∈ captureRules naddr clist) : ∃ c ∈ clist, rule.dst = c.cdata.addr := by
  obtain ⟨c, inList, isRule⟩ := List.mem_flatMap.mp member
  refine ⟨c, inList, ?_⟩
  split at isRule
  · cases isRule
  · rcases List.mem_cons.mp isRule with rfl | isRule
    · rfl
    · rw [List.mem_singleton.mp isRule]

/-- Accepted commodities have valid destinations. -/
theorem initCommodities_valid {clist : List Commodity} (accepted : initCommodities ipver strings = .ok clist) :
    ∀ c ∈ clist, ValidNetaddr c.cdata.addr := by
  obtain ⟨cs, read, rfl, _⟩ := initCommodities_ok accepted
  intro c member
  obtain ⟨s, _, isCommodity⟩ := Fallible.related_mem read (List.mem_reverse.mp member)
  obtain ⟨_, _, _, _, addr, _, parsed, rfl⟩ := commodityOf_ok isCommodity
  exact netaddrFromString_valid parsed

/-- Whatever commodity strings are accepted, the commands of a start say what its rules are. -/
theorem capture_commands_faithful (accepted : initCommodities ipver strings = .ok bprd.clist)
    (started : backloggerInit createQueue leftover bprd = .ok (bprd', rules)) :
    ∃ cmds, captureCommands rules = .ok cmds ∧ List.Forall₂ RunsAs rules cmds := by
  unfold backloggerInit at started
  obtain ⟨clist, bound, result⟩ := Fallible.bind_eq_ok_iff.mp started
  cases result
  have valid : ∀ rule ∈ captureRules (copiedNetaddr leftover bprd.saddr) clist, ValidNetaddr rule.dst := by
    intro rule member
    obtain ⟨c', inList, isDst⟩ := captureRules_dst member
    obtain ⟨c, configured, binds⟩ := Fallible.related_mem (Fallible.mapM_eq_ok_iff.mp bound) inList
    obtain ⟨_, rfl⟩ := bindQueue_ok binds
    rw [isDst]
    exact initCommodities_valid accepted c configured
  obtain ⟨cmds, ran⟩ := Fallible.exists_mapM fun rule member =>
    (ruleCommand_runsAs (valid rule member)).imp fun _ runs => runs.1
  refine ⟨cmds, ran, ?_⟩
  have each := (List.forall₂_and_left _ _).mpr ⟨valid, Fallible.mapM_eq_ok_iff.mp ran⟩
  refine each.imp ?_
  rintro rule cmd ⟨isValid, isCommand⟩
  obtain ⟨cmd', isCommand', runs⟩ := ruleCommand_runsAs isValid
  rw [isCommand] at isCommand'
  cases isCommand'
  exact runs

/-- The address 10.0.0.1, with the commodity of the string `10.0.0.0/8,3`. -/
def gatekeeper : BprdT :=
  { ipver := afInet, ifIndex := 1, saddr := ⟨afInet, [10, 0, 0, 1]⟩, helloSeqno := 0
    neighborTimeout := 2500000, clist := [newCommodity (⟨padAddr [10, 0, 0, 0], afInet, 8⟩, 3)]
    nlist := [] }

theorem capture_commands_faithful_gatekeeper : ∃ cmds,
    captureCommands [⟨.output, ⟨padAddr [10, 0, 0, 0], afInet, 8⟩, 3⟩,
      ⟨.prerouting, ⟨padAddr [10, 0, 0, 0], afInet, 8⟩, 3⟩] = .ok cmds ∧
    List.Forall₂ RunsAs [⟨.output, ⟨padAddr [10, 0, 0, 0], afInet, 8⟩, 3⟩,
      ⟨.prerouting, ⟨padAddr [10, 0, 0, 0], afInet, 8⟩, 3⟩] cmds :=
  @capture_commands_faithful (fun _ => some 7) zeroLeftover afInet ["10.0.0.0/8,3".toList] gatekeeper
    { gatekeeper with
      clist := [{ newCommodity (⟨padAddr [10, 0, 0, 0], afInet, 8⟩, 3) with
        queue := some { fifoInit with qh := some 7 } }] } _ rfl rfl

end

end Bprd
