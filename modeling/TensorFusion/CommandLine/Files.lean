import TensorFusion.Error

/-!
# CommandLine — Files

The files that the command works on. They are kept by an operating system, which may refuse to read
or to write; the command only asks it to.
-/

namespace TensorFusion.CommandLine

/-- A file system with its states: the text that a path is read as, and the state after a text was
written to a path. -/
structure FileSystem (σ : Type) where
  read (files : σ) (path : String) : Except Error String
  write (files : σ) (path text : String) : Except Error σ

end TensorFusion.CommandLine
