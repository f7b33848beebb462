import CodeAtlas.Main
import CodeAtlas.Proofs.Redundancy
import CodeAtlas.Proofs.RouteFiles
import CodeAtlas.Proofs.OwnModel
import CodeAtlas.Proofs.Representation
import CodeAtlas.Proofs.Discovery
import CodeAtlas.Proofs.JsonLines
import CodeAtlas.Proofs.Markdown.Section
import CodeAtlas.Proofs.Config
import CodeAtlas.Proofs.Php.Inheritance
import CodeAtlas.Proofs.Go.Pairing
import CodeAtlas.Proofs.Go.Constructor
import CodeAtlas.Proofs.Markdown.Breadcrumb
import CodeAtlas.Proofs.Php.Group
import CodeAtlas.Proofs.Php.Imports
import CodeAtlas.Proofs.Leading
import CodeAtlas.Proofs.Python.Docstring
import CodeAtlas.Proofs.Python.Cover
import CodeAtlas.Proofs.Literal
import CodeAtlas.Proofs.Php.DoubleQuoted
import CodeAtlas.Proofs.StringConstant
import CodeAtlas.Proofs.Python.Piece
import CodeAtlas.Proofs.Comment
import CodeAtlas.Proofs.Php.Quoting
import CodeAtlas.Proofs.Snake
