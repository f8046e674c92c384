import ShaderLowering.Spirv.Instruction

/-!
# Configuration of a run

A run is configured by its number of worker threads and by two words of the module header.  The
named starting points replace a whole configuration; the setters change one word.
-/

namespace ShaderLowering

open Spirv (Word)

/-- Settings of a run.  No worker threads means as many as the machine offers. -/
structure Config where
  threads : Nat
  version : Word
  generator : Word
  deriving DecidableEq, Repr

namespace Config

/-- Version 1.3 of the format. -/
def defaultVersion : Word := 0x00010300

/-- The generator word written unless another one is chosen. -/
def defaultGenerator : Word := 0x1ec5712d

def standard : Config :=
  ⟨0, defaultVersion, defaultGenerator⟩

def withThreads (threads : Nat) : Config :=
  { standard with threads }

def singleThreaded : Config :=
  withThreads 1

def setVersion (c : Config) (version : Word) : Config :=
  { c with version }

def setGenerator (c : Config) (generator : Word) : Config :=
  { c with generator }

/-- The number of worker threads on a machine that offers `available` of them. -/
def workers (c : Config) (available : Nat) : Nat :=
  if c.threads = 0 then available else c.threads

end Config

end ShaderLowering
