/-! # Vocabulary

The names from RDF, R2RML and RML that the compiler gives a meaning to.
-/

namespace RmlAlgebra

namespace Rdf

def type : String := "http://www.w3.org/1999/02/22-rdf-syntax-ns#type"
def first : String := "http://www.w3.org/1999/02/22-rdf-syntax-ns#first"
def rest : String := "http://www.w3.org/1999/02/22-rdf-syntax-ns#rest"
def nil : String := "http://www.w3.org/1999/02/22-rdf-syntax-ns#nil"

end Rdf

namespace R2rml

def triplesMap : String := "http://www.w3.org/ns/r2rml#TriplesMap"
def subjectMap : String := "http://www.w3.org/ns/r2rml#subjectMap"
def predicateObjectMap : String := "http://www.w3.org/ns/r2rml#predicateObjectMap"
def predicateMap : String := "http://www.w3.org/ns/r2rml#predicateMap"
def objectMap : String := "http://www.w3.org/ns/r2rml#objectMap"
def graphMap : String := "http://www.w3.org/ns/r2rml#graphMap"
def datatypeMap : String := "http://www.w3.org/ns/r2rml#datatypeMap"
def languageMap : String := "http://www.w3.org/ns/r2rml#languageMap"

def subject : String := "http://www.w3.org/ns/r2rml#subject"
def predicate : String := "http://www.w3.org/ns/r2rml#predicate"
def object : String := "http://www.w3.org/ns/r2rml#object"
def graph : String := "http://www.w3.org/ns/r2rml#graph"
def datatype : String := "http://www.w3.org/ns/r2rml#datatype"
def language : String := "http://www.w3.org/ns/r2rml#language"
def class_ : String := "http://www.w3.org/ns/r2rml#class"

def constant : String := "http://www.w3.org/ns/r2rml#constant"
def template : String := "http://www.w3.org/ns/r2rml#template"
def termType : String := "http://www.w3.org/ns/r2rml#termType"
def iri : String := "http://www.w3.org/ns/r2rml#IRI"
def blankNode : String := "http://www.w3.org/ns/r2rml#BlankNode"
def literal : String := "http://www.w3.org/ns/r2rml#Literal"

def parentTriplesMap : String := "http://www.w3.org/ns/r2rml#parentTriplesMap"
def joinCondition : String := "http://www.w3.org/ns/r2rml#joinCondition"
def child : String := "http://www.w3.org/ns/r2rml#child"
def parent : String := "http://www.w3.org/ns/r2rml#parent"
def defaultGraph : String := "http://www.w3.org/ns/r2rml#defaultGraph"

end R2rml

namespace Rml

def logicalSource : String := "http://semweb.mmlab.be/ns/rml#logicalSource"
def source : String := "http://semweb.mmlab.be/ns/rml#source"
def reference : String := "http://semweb.mmlab.be/ns/rml#reference"

end Rml

end RmlAlgebra
