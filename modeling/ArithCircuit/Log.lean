import ArithCircuit.GateCount
import ArithCircuit.Pipeline.Config

set_option autoImplicit false

namespace ArithCircuit

inductive LogLevel where
  | debug
  | trace
deriving DecidableEq

inductive Event where
  | rebalanced (chain factors oldDepth newDepth : Nat)
  | kept (chain factors depth : Nat)
  | factored (count left right : Nat)
  | distributing (product : Nat)
  | reduced (root rootDepth result resultDepth : Nat)
  | simplified (root result : Nat)
  | expanded (root result : Nat)
  | merged (outputs gatesBefore gatesAfter : Nat)
  | ran (pipeline : Pipeline) (before after : Stats)
deriving DecidableEq

namespace Event

def level : Event → LogLevel
  | rebalanced .. | kept .. | factored .. | distributing .. => .trace
  | reduced .. | simplified .. | expanded .. | merged .. | ran .. => .debug

def message : Event → String
  | rebalanced chain factors old new =>
    s!"rebalanced chain {Node.label chain} of {factors} factors: depth {old} -> {new}"
  | kept chain factors depth =>
    s!"kept chain {Node.label chain} of {factors} factors at depth {depth}"
  | factored count left right =>
    s!"factored {count} common operands out of {Node.label left} + {Node.label right}"
  | distributing product => s!"distributing {Node.label product}"
  | reduced root rootDepth result resultDepth =>
    s!"reduce_depth: {Node.label root} (depth {rootDepth}) -> "
      ++ s!"{Node.label result} (depth {resultDepth})"
  | simplified root result => s!"simplify: {Node.label root} -> {Node.label result}"
  | expanded root result => s!"expand: {Node.label root} -> {Node.label result}"
  | merged outputs before after => s!"dedup: {outputs} outputs, {before} -> {after} gates"
  | ran pipeline before after => s!"pipeline {pipeline.text}: {before.text} -> {after.text}"

end Event

structure Log where
  threshold : Option LogLevel
  latestFirst : List Event

namespace Log

def off : Log := ⟨none, []⟩

def upTo (level : LogLevel) : Log := ⟨some level, []⟩

def admits (log : Log) (level : LogLevel) : Bool :=
  match log.threshold with
  | none => false
  | some .debug => level = .debug
  | some .trace => true

def record (log : Log) (event : Event) : Log :=
  if log.admits event.level then { log with latestFirst := event :: log.latestFirst } else log

def events (log : Log) : List Event := log.latestFirst.reverse

end Log

end ArithCircuit
